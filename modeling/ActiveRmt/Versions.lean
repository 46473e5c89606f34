/-
**Versions of allocations.**

The reply to a function whose allocation is complete carries a version.  A client adopts a reply
when the version differs from the one it knows, and never looks at the ranges otherwise.

What a handler does to one function is described by `Follows`: if the function has a complete
allocation after it, either its version has been raised on the way or nothing about it has changed.
Inside a handler the ranges change before the version; `Keeps` lists the functions for which this is
the case.

Main definitions:

* `version`, `ranges` — what is recorded about a function;
* `Follows`, `Keeps` — what may have happened to it;
* `AtomicStep` — a handler that runs without interruption and without an exception.

Main results:

* `AtomicStep.follows` — **every handler raises the version of a function whose ranges it changes**;
* `version_identifies` — a version identifies the ranges.
-/

import ActiveRmt.Handlers

set_option relaxedAutoImplicit false
set_option autoImplicit false

namespace ActiveRmt

open Allocator (Remaps)

/-! ### Leaving things alone -/

section Leaves

variable {ε σ α γ : Type} {g : σ → γ}

theorem Leaves.get : Leaves g (get : EStateM ε σ σ) := fun _ => ends_get.2 rfl

theorem Leaves.throw {e : ε} : Leaves g (throw e : EStateM ε σ α) := fun _ => ends_throw.2 rfl

theorem Leaves.modify {h : σ → σ} (hg : ∀ s, g (h s) = g s) :
    Leaves g (modify h : EStateM ε σ PUnit) := fun s => ends_modify.2 (hg s)

theorem Leaves.ite {p : Prop} [Decidable p] {x y : EStateM ε σ α} (hx : Leaves g x)
    (hy : Leaves g y) : Leaves g (if p then x else y) := by
  split_ifs
  · exact hx
  · exact hy

end Leaves

/-! ### What the tables say about a function -/

namespace Switch

/-- The ranges of a function. -/
def ranges (sw : Switch) (f : Fid) : GressStage → Option AllocationEntry := fun k =>
  (sw.allocations k).get? f

/-- The ranges of the functions outside `D` are left alone. -/
def LeavesRanges {α : Type} (D : Fid → Prop) (x : EStateM Exn Switch α) : Prop :=
  ∀ f, ¬ D f → Leaves (fun sw => ranges sw f) x

theorem leavesRanges_changeAllocations {D : Fid → Prop} {k : GressStage} {f : Fid} (hf : D f)
    (g : Dict Fid AllocationEntry → Except Exn (Dict Fid AllocationEntry))
    (hg : ∀ d d', g d = .ok d' → ∀ f', f' ≠ f → d'.get? f' = d.get? f') :
    LeavesRanges D (changeAllocations k g) := by
  intro f' hf' sw
  have hne : f' ≠ f := fun h => hf' (h ▸ hf)
  refine ends_zoom.2 ?_
  unfold change
  cases hd : g (sw.allocations k) with
  | error ex =>
      refine ends_of_error (by rw [hd]) ?_
      funext k'
      simp only [ranges]
      by_cases hk : k' = k
      · subst hk
        rw [Function.update_self]
      · rw [Function.update_of_ne hk]
  | ok d =>
      refine ends_of_ok (by rw [hd]) ?_
      funext k'
      simp only [ranges]
      by_cases hk : k' = k
      · subst hk
        rw [Function.update_self]
        exact hg _ _ hd f' hne
      · rw [Function.update_of_ne hk]

theorem get?_of_tableAdd {κ α : Type} [DecidableEq κ] {d d' : Dict κ α} {k : κ} {v : α}
    (h : tableAdd d k v = .ok d') : ∀ k', k' ≠ k → d'.get? k' = d.get? k' := by
  intro k' hk
  unfold tableAdd at h
  split_ifs at h
  obtain rfl := Except.ok.inj h
  rw [Dict.get?_set, if_neg hk]

/-- What each step of two nested loops keeps. -/
theorem foldl_nested {β γ δ : Type} {P : δ → Prop} {f : δ → β → γ → δ} {l : List (β × List γ)}
    (h : ∀ d, P d → ∀ p ∈ l, ∀ q ∈ p.2, P (f d p.1 q)) {d : δ} (hd : P d) :
    P (l.foldl (fun d p => p.2.foldl (fun d q => f d p.1 q) d) d) := by
  refine List.foldlRecOn l _ hd fun d hd p hp => ?_
  exact List.foldlRecOn p.2 _ hd fun d hd q hq => h d hd p hp q hq

section Remapped

variable {remaps : Remaps}

/-- The functions of the remaps of a stage are remapped. -/
theorem mem_keys_of_remappedStages {i : Stage} {l : List (Fid × Allocator.Remap)}
    (hp : (i, l) ∈ (remappedStages remaps).items) : ∀ q ∈ l, q.1 ∈ remaps.keys := by
  have key := foldl_nested (P := fun d : Dict Stage (List (Fid × Allocator.Remap)) =>
      ∀ i l, d.get? i = some l → ∀ q ∈ l, q.1 ∈ remaps.keys)
    (f := fun d f r => d.set r.fromStage ((d.get? r.fromStage).getD [] ++ [(f, r)]))
    (l := remaps.items) (d := Dict.empty) ?_ fun i l hl => absurd hl (by
      simp [Dict.get?, Dict.empty, Dict.lookup])
  · exact key i l ((Dict.mem_items_iff _ _ _).1 hp)
  · intro d hd p hp r _ i l hl q hq
    rw [Dict.get?_set] at hl
    split_ifs at hl
    · obtain rfl := Option.some.inj hl
      rcases List.mem_append.1 hq with hq | hq
      · cases hg : d.get? r.fromStage with
        | none => rw [hg] at hq; exact absurd hq List.not_mem_nil
        | some l => rw [hg] at hq; exact hd _ l hg q hq
      · rw [List.mem_singleton.1 hq]
        exact List.mem_map_of_mem hp
    · exact hd i l hl q hq

theorem mem_keys_of_staleAllocs {k : GressStage} {t : Dict Fid Unit}
    (hp : (k, t) ∈ (staleAllocs (remappedStages remaps)).items) : ∀ f ∈ t.keys, f ∈ remaps.keys := by
  have key := foldl_nested (P := fun d : Dict GressStage (Dict Fid Unit) =>
      ∀ k t, d.get? k = some t → ∀ f ∈ t.keys, f ∈ remaps.keys)
    (f := fun d i (q : Fid × Allocator.Remap) =>
      d.set (gressStage i) (((d.get? (gressStage i)).getD Dict.empty).set q.1 ()))
    (l := (remappedStages remaps).items) (d := Dict.empty) ?_ fun k t ht => absurd ht (by
      simp [Dict.get?, Dict.empty, Dict.lookup])
  · exact key k t ((Dict.mem_items_iff _ _ _).1 hp)
  · intro d hd p hp q hq k t ht f hf
    rw [Dict.get?_set] at ht
    split_ifs at ht
    · obtain rfl := Option.some.inj ht
      rcases (Dict.mem_keys_set _ _ _ _).1 hf with rfl | hf
      · exact mem_keys_of_remappedStages hp q hq
      · cases hg : d.get? (gressStage p.1) with
        | none => rw [hg] at hf; exact absurd hf List.not_mem_nil
        | some t => rw [hg] at hf; exact hd _ t hg f hf
    · exact hd k t ht f hf

theorem mem_keys_of_allocRemapTable {f : Fid}
    (hf : f ∈ (allocRemapTable (remappedStages remaps)).keys) : f ∈ remaps.keys := by
  refine foldl_nested (P := fun d : Dict Fid (Dict GressStage (List ℕ × List ℕ)) =>
      ∀ f ∈ d.keys, f ∈ remaps.keys)
    (f := fun d i (q : Fid × Allocator.Remap) =>
      let stages := (d.get? q.1).getD Dict.empty
      let blocks := (stages.get? (gressStage i)).getD ([], [])
      let blocks :=
        if isIngress q.2.toStage then (q.2.newAlloc, blocks.2) else (blocks.1, q.2.newAlloc)
      d.set q.1 (stages.set (gressStage i) blocks))
    (l := (remappedStages remaps).items) (d := Dict.empty) ?_ (fun f hf => absurd hf List.not_mem_nil)
    f hf
  intro d hd p hp q hq f hf
  rcases (Dict.mem_keys_set _ _ _ _).1 hf with rfl | hf
  · exact mem_keys_of_remappedStages hp q hq
  · exact hd f hf

/-- **The allocation tables of the remapped functions** change for these only. -/
theorem leavesRanges_updateAllocationTables (bs : ℚ) :
    LeavesRanges (· ∈ remaps.keys) (updateAllocationTables bs (remappedStages remaps)) := by
  intro f hf
  refine (Leaves.forM fun p hp => Leaves.forM fun tid htid => ?_).bind fun _ =>
    Leaves.forM fun p hp => Leaves.forM fun q _ => ?_
  · have hmem := mem_keys_of_staleAllocs hp tid htid
    refine (leavesRanges_changeAllocations hmem _ (fun d d' hd f' hf' => ?_) f hf).bind fun _ => ?_
    · obtain rfl := Except.ok.inj hd
      rw [Dict.get?_erase, if_neg hf']
    · cases (allocRemapTable (remappedStages remaps)).get? tid with
      | none => exact Leaves.throw
      | some stages =>
          refine Leaves.ite Leaves.pure (leavesRanges_changeAllocations hmem _ ?_ f hf)
          exact fun d d' hd => get?_of_tableAdd hd
  · have hmem : p.1 ∈ remaps.keys := mem_keys_of_allocRemapTable (List.mem_map_of_mem hp)
    exact leavesRanges_changeAllocations hmem _ (fun d d' hd => get?_of_tableAdd hd) f hf

end Remapped

/-- **The entries of a new function** are in the allocation tables of this function only. -/
theorem leavesRanges_installAllocation (bs : ℚ) (v : Bool) (f : Fid)
    (allocation : Dict Stage (List ℕ)) :
    LeavesRanges (· = f) (installAllocation bs v f allocation) := by
  intro f' hf'
  have hadd : ∀ i e, Leaves (fun sw => ranges sw f') (addEntry i e) := fun i e =>
    leaves_part (leaves_addEntry i e) fun r k => (r.2 k).get? f'
  refine (Leaves.forM fun p _ => Leaves.forM fun e _ => hadd p.1 e).bind fun _ => ?_
  refine (leaves_part (leaves_installVirtualAddressEntries bs v f allocation)
    (fun r k => (r.2 k).get? f')).bind fun _ => Leaves.forM fun k _ => ?_
  exact leavesRanges_changeAllocations (D := (· = f)) rfl _ (fun d d' hd => get?_of_tableAdd hd) f' hf'

/-- **The entries of a departing function** are those of this function only. -/
theorem leavesRanges_removeFunction (f : Fid) : LeavesRanges (· = f) (removeFunction f) := by
  intro f' hf'
  have hentries : ∀ p i, Leaves (fun sw => ranges sw f') (removeEntries p i) := fun p i =>
    leaves_part (leaves_removeEntries p i) fun r k => (r.2 k).get? f'
  refine (Leaves.forM fun i _ => hentries _ i).bind fun _ => ?_
  refine (Leaves.forM fun k _ => hentries _ _).bind fun _ => ?_
  have herase : ∀ k, Leaves (fun sw => ranges sw f') (changeAllocations k fun d => .ok (d.erase f)) := by
    intro k
    refine leavesRanges_changeAllocations (D := (· = f)) rfl _ (fun d d' hd f'' hf'' => ?_) f' hf'
    obtain rfl := Except.ok.inj hd
    rw [Dict.get?_erase, if_neg hf'']
  refine (Leaves.forM fun k _ => (hentries _ _).bind fun _ => herase k).bind fun _ => ?_
  · refine Leaves.get.bind fun sw => ?_
    have hzoom : ∀ g, Leaves (fun sw => ranges sw f') (changeAllocation g) := fun g sw =>
      ends_zoom.2 (ends_of_forall (fun _ _ => rfl) fun _ => rfl)
    have hquota : ∀ g, Leaves (fun sw => ranges sw f') (changeQuotaRecirc g) := fun g sw =>
      ends_zoom.2 (ends_of_forall (fun _ _ => rfl) fun _ => rfl)
    refine Leaves.ite Leaves.pure ?_
    exact (hzoom _).bind fun _ => (hquota _).bind fun _ => Leaves.pure

/-- A new version of a reply. -/
theorem ends_renewAllocation_set (f : Fid) (n : ℕ) (sw : Switch) :
    Ends (renewAllocation f n) sw
      (fun _ sw' => sw' =
        { sw with allocation := (sw.allocation.erase f).set f (.allocated n) })
      fun _ => True := by
  unfold renewAllocation
  refine ends_bind.2 (ends_zoom.2 (ends_delete ?_ fun _ => trivial))
  intro _
  exact ends_zoom.2 (ends_add (fun _ => rfl) fun _ => trivial)

end Switch

/-! ### What is recorded about a function -/

namespace Controller

variable {cfg : ControllerConfig} {c c' c₀ : Controller} {D : Fid → Prop}

/-- The version of the allocation of a function. -/
def version (c : Controller) (f : Fid) : ℕ := (c.allocVersion.get? f).getD 0

/-- **What may have happened to a function**: if its allocation is complete, its version has been
raised, or nothing about it has changed. -/
structure Follows (c c' : Controller) (f : Fid) : Prop where
  version : c.version f ≤ c'.version f
  reply : ∀ n, c'.switch.allocation.get? f = some (.allocated n) →
    (c'.version f = n ∧ c.version f < n) ∨
      (c.switch.allocation.get? f = some (.allocated n) ∧ c'.version f = c.version f ∧
        c'.switch.ranges f = c.switch.ranges f)

theorem Follows.refl (c : Controller) (f : Fid) : Follows c c f :=
  ⟨le_rfl, fun _ h => .inr ⟨h, rfl, rfl⟩⟩

theorem Follows.trans {f : Fid} {c'' : Controller} (h : Follows c c' f) (h' : Follows c' c'' f) :
    Follows c c'' f := by
  refine ⟨h.version.trans h'.version, fun n hn => ?_⟩
  rcases h'.reply n hn with ⟨hv, hlt⟩ | ⟨ha, hv, hr⟩
  · exact .inl ⟨hv, h.version.trans_lt hlt⟩
  · rcases h.reply n ha with ⟨hv', hlt⟩ | ⟨ha', hv', hr'⟩
    · exact .inl ⟨hv.trans hv', hlt⟩
    · exact .inr ⟨ha', hv.trans hv', hr.trans hr'⟩

/-- **Every function follows**, except those of `D`, whose ranges may have changed already. -/
def Keeps (c₀ : Controller) (D : Fid → Prop) (c : Controller) : Prop :=
  ∀ f, c₀.version f ≤ c.version f ∧ (¬ D f → Follows c₀ c f)

/-- No function is an exception. -/
def Clean (c₀ c : Controller) : Prop := Keeps c₀ (fun _ => False) c

theorem clean_refl (c : Controller) : Clean c c := fun f => ⟨le_rfl, fun _ => Follows.refl c f⟩

theorem Keeps.mono {D' : Fid → Prop} (h : Keeps c₀ D c) (hD : ∀ f, D f → D' f) : Keeps c₀ D' c :=
  fun f => ⟨(h f).1, fun hf => (h f).2 fun hd => hf (hD f hd)⟩

/-- The parts of the controller that this is about. -/
def recorded (c : Controller) :
    Dict Fid ℕ × Dict Fid Reply × (GressStage → Dict Fid AllocationEntry) :=
  (c.allocVersion, c.switch.allocation, c.switch.allocations)

theorem Keeps.congr (h : Keeps c₀ D c) (hrec : recorded c' = recorded c) : Keeps c₀ D c' := by
  simp only [recorded, Prod.mk.injEq] at hrec
  obtain ⟨hv, ha, hr⟩ := hrec
  have hversion : ∀ f, c'.version f = c.version f := fun f => by rw [version, version, hv]
  have hranges : ∀ f, c'.switch.ranges f = c.switch.ranges f := fun f => by
    unfold Switch.ranges
    rw [hr]
  refine fun f => ⟨by rw [hversion]; exact (h f).1, fun hf => ⟨?_, fun n hn => ?_⟩⟩
  · rw [hversion]
    exact ((h f).2 hf).version
  · rw [hversion, hranges]
    exact ((h f).2 hf).reply n (by rw [← ha]; exact hn)

/-- An operation that changes nothing that is recorded. -/
theorem Keeps.of_leaves {α : Type} {x : EStateM Exn Controller α} (hx : Leaves recorded x)
    (h : Keeps c₀ D c) : Ends x c (fun _ => Keeps c₀ D) fun _ => True :=
  (hx c).mono (fun _ _ ht => h.congr ht) fun _ _ => trivial

/-- Tables of the functions in `R` are changed. -/
theorem Keeps.onSwitch {x : EStateM Exn Switch Unit} {R : Fid → Prop}
    (hreplies : Leaves Switch.replies x) (hranges : Switch.LeavesRanges R x) (h : Keeps c₀ D c) :
    Ends (onSwitch x) c (fun _ => Keeps c₀ fun f => D f ∨ R f) fun _ => True := by
  refine ends_onSwitch.2 ⟨fun u sw hsw f => ?_, fun _ _ _ => trivial⟩
  have ha : sw.allocation = c.switch.allocation := congrArg Prod.fst ((hreplies _).1 u sw hsw)
  refine ⟨(h f).1, fun hf => ?_⟩
  rw [not_or] at hf
  have hr : sw.ranges f = c.switch.ranges f := (hranges f hf.2 _).1 u sw hsw
  refine ⟨((h f).2 hf.1).version, fun n hn => ?_⟩
  rcases ((h f).2 hf.1).reply n (by rw [← ha]; exact hn) with hlt | ⟨ha', hv, hr'⟩
  · exact .inl hlt
  · exact .inr ⟨ha', hv, hr.trans hr'⟩

/-- The version of a function is raised. -/
def raised (c : Controller) (f : Fid) (n : ℕ) : Controller :=
  { c with
    allocVersion := c.allocVersion.set f n
    switch := { c.switch with
      allocation := (c.switch.allocation.erase f).set f (.allocated n) } }

theorem version_raised (c : Controller) (f : Fid) (n : ℕ) (f' : Fid) :
    (c.raised f n).version f' = if f' = f then n else c.version f' := by
  unfold version raised
  dsimp only
  rw [Dict.get?_set]
  split_ifs <;> rfl

/-- **A function whose version is raised is no longer an exception.** -/
theorem Keeps.raised (h : Keeps c₀ D c) {f : Fid} {n : ℕ} (hn : c.version f < n) :
    Keeps c₀ (fun f' => D f' ∧ f' ≠ f) (c.raised f n) := by
  intro f'
  by_cases hf : f' = f
  · subst hf
    have hv : (c.raised f' n).version f' = n := by rw [version_raised, if_pos rfl]
    have hlt := (h f').1.trans_lt hn
    refine ⟨by rw [hv]; exact hlt.le, fun _ => ⟨by rw [hv]; exact hlt.le, fun m hm => ?_⟩⟩
    have hget : (c.raised f' n).switch.allocation.get? f' = some (.allocated n) := by
      show ((c.switch.allocation.erase f').set f' _).get? f' = _
      rw [Dict.get?_set, if_pos rfl]
    rw [hget, Option.some.injEq, Reply.allocated.injEq] at hm
    rw [hv, ← hm]
    exact .inl ⟨rfl, hlt⟩
  · have hv : (c.raised f n).version f' = c.version f' := by rw [version_raised, if_neg hf]
    refine ⟨by rw [hv]; exact (h f').1, fun hD => ?_⟩
    have hfollows := (h f').2 fun hd => hD ⟨hd, hf⟩
    refine ⟨by rw [hv]; exact hfollows.version, fun m hm => ?_⟩
    have hget : (c.raised f n).switch.allocation.get? f' = c.switch.allocation.get? f' := by
      show ((c.switch.allocation.erase f).set f _).get? f' = _
      rw [Dict.get?_set, if_neg hf, Dict.get?_erase, if_neg hf]
    rw [hv]
    exact hfollows.reply m (by rw [← hget]; exact hm)

/-- The reply to a function is replaced by one that is not about a complete allocation. -/
theorem Keeps.replied {f : Fid} (hD : ∀ f', D f' → f' = f) (h : Keeps c₀ D c) {d : Dict Fid Reply}
    (hd : ∀ n, d.get? f ≠ some (.allocated n))
    (hother : ∀ f', f' ≠ f → d.get? f' = c.switch.allocation.get? f') :
    Clean c₀ { c with switch := { c.switch with allocation := d } } := by
  intro f'
  refine ⟨(h f').1, fun _ => ⟨(h f').1, fun n hn => ?_⟩⟩
  by_cases hf : f' = f
  · subst hf
    exact absurd hn (hd n)
  · exact ((h f').2 fun hd => hf (hD f' hd)).reply n (by rw [← hother f' hf]; exact hn)

/-! ### The handlers -/

theorem ends_renewVersion (h : Keeps c₀ D c) (tid : Fid) :
    Ends (renewVersion tid) c (fun _ => Keeps c₀ fun f => D f ∧ f ≠ tid) fun _ => True := by
  unfold renewVersion
  refine ends_bind.2 (ends_get.2 ?_)
  cases hv : c.allocVersion.get? tid with
  | none => exact ends_throw.2 trivial
  | some v =>
      refine ends_bind.2 (ends_modify.2 (ends_onSwitch.2 ?_))
      refine (Switch.ends_renewAllocation_set tid (v + 1) _).mono ?_ fun _ _ => trivial
      intro _ sw hsw
      rw [hsw]
      refine h.raised (n := v + 1) ?_
      rw [version, hv]
      exact Nat.lt_succ_self v

theorem ends_publishVersion (h : Keeps c₀ D c) (f : Fid) :
    Ends (publishVersion f) c (fun _ => Keeps c₀ fun f' => D f' ∧ f' ≠ f) fun _ => True := by
  unfold publishVersion
  refine ends_bind.2 (ends_get.2 (ends_bind.2 (ends_modify.2 (ends_onSwitch.2 ?_))))
  refine (Switch.ends_renewAllocation_set f _ _).mono ?_ fun _ _ => trivial
  intro _ sw hsw
  rw [hsw]
  exact h.raised (Nat.lt_succ_self _)

/-- **`updateAllocation`** raises the version of every remapped function, and leaves the new one an
exception. -/
theorem ends_updateAllocation_keeps (h : Clean c₀ c) (f : Fid) (allocation : Dict Stage (List ℕ))
    (r : Remaps) :
    Ends (updateAllocation cfg f allocation r) c (fun _ => Keeps c₀ (· = f)) fun _ => True := by
  have hquiet : ∀ {x : EStateM Exn Switch Unit}, Leaves Switch.records x → ∀ c, Clean c₀ c →
      Ends (onSwitch x) c (fun _ => Clean c₀) fun _ => True := by
    intro x hrecords c hc
    refine (hc.onSwitch (Switch.leaves_part hrecords Prod.fst) (R := fun _ => False) fun f _ =>
      Switch.leaves_part hrecords fun r k => (r.2 k).get? f).mono ?_ fun _ _ => trivial
    exact fun _ c' hc' => hc'.mono fun f hf => hf.elim id id
  unfold updateAllocation
  refine ends_bind.2 ((hquiet (Switch.leaves_updateMemoryAccess _ _) c h).mono ?_ fun _ _ => trivial)
  intro _ c₁ h₁
  refine ends_bind.2 ((hquiet (Switch.leaves_updateVaddr _ _ _) c₁ h₁).mono ?_ fun _ _ => trivial)
  intro _ c₂ h₂
  refine ends_bind.2 ((h₂.onSwitch (Switch.leaves_part
    (Switch.leaves_updateAllocationTables _ _) Prod.fst)
    (Switch.leavesRanges_updateAllocationTables _)).mono ?_ fun _ _ => trivial)
  intro _ c₃ h₃
  -- the versions of the remapped functions are raised one by one
  refine ends_bind.2 ((ends_forM (E := fun _ => True)
    (fun ps c => Keeps c₀ (fun f => f ∈ r.keys ∧ f ∉ ps) c) ?_ r.keys [] c₃ rfl ?_).mono ?_
    fun _ _ => trivial)
  · intro ps tid rest _ c₄ h₄
    refine (ends_renewVersion h₄ tid).mono ?_ fun _ _ => trivial
    exact fun _ c₅ h₅ => h₅.mono fun f hf => ⟨hf.1.1, by
      rw [List.mem_append, List.mem_singleton, not_or]
      exact ⟨hf.1.2, hf.2⟩⟩
  · exact h₃.mono fun f hf => ⟨hf.elim False.elim id, List.not_mem_nil⟩
  · intro _ c₄ h₄
    have hclean : Clean c₀ c₄ := h₄.mono fun f hf => hf.2 hf.1
    refine (hclean.onSwitch (Switch.leaves_installAllocation _ _ _ _)
      (Switch.leavesRanges_installAllocation _ _ _ _)).mono ?_ fun _ _ => trivial
    exact fun _ c₅ h₅ => h₅.mono fun f hf => hf.elim False.elim id

section Quiet

theorem leaves_onAllocator {α : Type} (x : EStateM Exn Allocator α) :
    Leaves recorded (onAllocator x) := fun _ =>
  ends_onAllocator.2 (ends_of_forall (fun _ _ => rfl) fun _ => rfl)

theorem leaves_stopTelling (f : Fid) : Leaves recorded (stopTelling f) := fun _ =>
  ends_onSwitch.2 (ends_zoom.2 (ends_of_forall (fun _ _ => rfl) fun _ => rfl))

theorem leaves_leaveQueue (f : Fid) : Leaves recorded (leaveQueue f) :=
  Leaves.get.bind fun _ => Leaves.ite (Leaves.modify fun _ => rfl) Leaves.throw

theorem leaves_leaveActive (f : Fid) : Leaves recorded (leaveActive f) :=
  Leaves.get.bind fun _ => Leaves.ite (Leaves.modify fun _ => rfl) Leaves.throw

theorem leaves_popAllocTiming (f : Fid) : Leaves recorded (popAllocTiming f) :=
  Leaves.get.bind fun _ => Leaves.ite (Leaves.modify fun _ => rfl) Leaves.throw

theorem leaves_popDrainQueue (f : Fid) : Leaves recorded (popDrainQueue f) :=
  Leaves.get.bind fun _ => Leaves.ite (Leaves.modify fun _ => rfl) Leaves.throw

theorem leaves_dropPeer (f : Fid) : Leaves recorded (dropPeer f) := by
  refine Leaves.bind (Leaves.modify ?_) fun _ => Leaves.bind Leaves.get fun _ => ?_
  · exact fun _ => rfl
  · refine Leaves.ite (Leaves.bind (leaves_stopTelling f) fun _ => Leaves.modify ?_) Leaves.pure
    exact fun _ => rfl

theorem leaves_queuePeer (r : Remaps) (f : Fid) : Leaves recorded (queuePeer r f) := by
  refine Leaves.bind (Leaves.modify ?_) fun _ => Leaves.bind Leaves.get fun c => ?_
  · exact fun _ => rfl
  · cases c.allocVersion.get? f with
    | none => exact Leaves.throw
    | some v =>
        exact fun _ => ends_onSwitch.2 (ends_zoom.2 (ends_of_forall (fun _ _ => rfl) fun _ => rfl))

theorem leaves_waitForPeers (r : Remaps) : Leaves recorded (waitForPeers r) := by
  refine Leaves.bind (Leaves.modify ?_) fun _ => Leaves.forM fun f _ => leaves_queuePeer r f
  exact fun _ => rfl

theorem leaves_applyQueuedAllocation (f : Fid) (r : Remaps) :
    Leaves recorded (applyQueuedAllocation f r) :=
  (leaves_onAllocator _).bind fun _ => Leaves.ite (Leaves.modify fun _ => rfl) Leaves.pure

theorem leaves_readAck (d : RemapDigest) : Leaves recorded (readAck d) := by
  intro c
  refine (ends_readAck d c).mono ?_ ?_
  · intro a c' h
    rcases h with ⟨-, I, m, rfl, -⟩ | ⟨rs, m, -, -, -, -, -, rfl, -⟩ <;> rfl
  · intro c' h
    obtain ⟨⟨I, T, m, rfl⟩, -⟩ := h
    rfl

end Quiet

/-- **Applying a queued allocation** leaves no exception. -/
theorem ends_completeAllocation_clean (h : Clean c₀ c) (f : Fid) (r : Remaps) :
    Ends (completeAllocation cfg f r) c (fun _ => Clean c₀) fun _ => True := by
  unfold completeAllocation
  refine ends_bind.2 ((h.of_leaves (leaves_applyQueuedAllocation f r)).mono ?_ fun _ _ => trivial)
  intro _ c₁ h₁
  refine ends_bind.2 (ends_get.2 (ends_bind.2 ((ends_updateAllocation_keeps h₁ f _ r).mono ?_
    fun _ _ => trivial)))
  intro _ c₂ h₂
  have hquota : Leaves recorded (onSwitch (Switch.addQuotas f)) := fun _ =>
    ends_onSwitch.2 (ends_zoom.2 (ends_of_forall (fun _ _ => rfl) fun _ => rfl))
  refine ends_bind.2 ((h₂.of_leaves hquota).mono ?_ fun _ _ => trivial)
  intro _ c₃ h₃
  refine ends_bind.2 ((ends_publishVersion h₃ f).mono ?_ fun _ _ => trivial)
  intro _ c₄ h₄
  have hclean : Clean c₀ c₄ := h₄.mono fun f' hf => hf.2 hf.1
  refine hclean.of_leaves (Leaves.bind (Leaves.modify ?_) fun _ => ?_)
  · exact fun _ => rfl
  · refine (leaves_leaveQueue f).bind fun _ => (leaves_popAllocTiming f).bind fun _ => ?_
    exact Leaves.modify fun _ => rfl

theorem ends_resumeAllocation_clean (h : Clean c₀ c) (f : Fid) (r : Remaps) :
    Ends (resumeAllocation cfg f r) c (fun _ => Clean c₀) fun _ => True := by
  unfold resumeAllocation
  refine ends_bind.2 (ends_get.2 (ends_ite (fun _ => ends_bind.2 (ends_throw.2 trivial)) fun _ => ?_))
  refine ends_bind.2 (ends_get.2 (ends_ite (fun _ => ends_pure.2 h) fun _ => ?_))
  refine ends_bind.2 (ends_modify.2 ?_)
  refine ends_completeAllocation_clean ?_ f r
  exact h.congr rfl

/-- **A request** leaves no exception. -/
theorem ends_allocate_clean (h : Clean c₀ c) (req : Request) :
    Ends (allocate cfg req) c (fun _ => Clean c₀) fun _ => True := by
  have hdelete : ∀ {c}, Clean c₀ c → Ends (refuse req.fid) c (fun _ => Clean c₀) fun _ => True := by
    intro c hc
    unfold refuse
    refine ends_bind.2 (ends_onSwitch.2 (ends_zoom.2 (Switch.ends_delete ?_ fun _ => trivial)))
    intro _
    refine (Keeps.of_leaves ((leaves_leaveQueue req.fid).bind fun _ =>
      Leaves.modify fun _ => rfl) (Keeps.replied (f := req.fid) (fun _ h => h.elim) hc ?_ ?_))
    · intro n hn
      rw [Dict.get?_erase, if_pos rfl] at hn
      exact absurd hn (Option.some_ne_none _).symm
    · intro f' hf
      rw [Dict.get?_erase, if_neg hf]
  unfold allocate
  refine ends_bind.2 (ends_get.2 (ends_bind.2 (ends_get.2 (ends_ite (fun _ => ends_pure.2 h)
    fun _ => ?_))))
  unfold beginAllocation
  refine ends_bind.2 (ends_bind.2 (ends_modify.2 (ends_onSwitch.2 (ends_zoom.2 (Switch.ends_add ?_
    fun _ => trivial)))))
  intro _
  have hbegin : Clean c₀ { c with
      queue := c.queue ++ [req.fid]
      allocTiming := insert req.fid c.allocTiming } := h.congr rfl
  have hpending := Keeps.replied (f := req.fid) (fun _ h => h.elim) hbegin
    (d := c.switch.allocation.set req.fid .pending)
    (fun n hn => by
      rw [Dict.get?_set, if_pos rfl, Option.some.injEq] at hn
      exact Reply.noConfusion hn)
    (fun f' hf => by rw [Dict.get?_set, if_neg hf])
  cases activeFunction cfg req with
  | error ex => exact ends_throw.2 trivial
  | ok af =>
      refine ends_bind.2 (ends_modify.2 (ends_bind.2 ?_))
      have hcompute : ∀ c, Clean c₀ c → Ends (onAllocator (Allocator.computeAllocation cfg.allocator af))
          c (fun _ => Clean c₀) fun _ => True := fun c hc => hc.of_leaves (leaves_onAllocator _)
      refine (hcompute _ ?_).mono ?_ fun _ _ => trivial
      · exact hpending.congr rfl
      intro ch c₁ h₁
      cases ch with
      | none => exact hdelete h₁
      | some ch =>
          refine ends_ite (fun _ => ?_) fun _ => ends_ite (fun _ => hdelete h₁) fun _ => ?_
          · unfold startAllocation
            refine ends_bind.2 ((h₁.of_leaves (leaves_onAllocator _)).mono ?_ fun _ _ => trivial)
            intro t c₂ h₂
            obtain ⟨changes, remaps, plan⟩ := t
            refine ends_bind.2 (ends_modify.2 (ends_ite (fun _ => ?_) fun _ => ?_))
            · refine ends_resumeAllocation_clean ?_ req.fid remaps
              exact h₂.congr rfl
            · refine Keeps.of_leaves (leaves_waitForPeers remaps) ?_
              exact h₂.congr rfl
          · exact ends_bind.2 (ends_modify.2 (ends_throw.2 trivial))

/-- **A departure** leaves no exception. -/
theorem ends_deallocate_clean (h : Clean c₀ c) (f : Fid) :
    Ends (deallocate f) c (fun _ => Clean c₀) fun _ => True := by
  unfold deallocate
  refine ends_bind.2 (ends_get.2 (ends_ite (fun _ => ?_) fun _ => ends_pure.2 h))
  refine ends_bind.2 (ends_onSwitch.2 ⟨fun b sw hsw => ?_, fun _ _ _ => trivial⟩)
  have hclean : Clean c₀ { c with switch := sw } := by
    have hreply := ((Switch.ends_removeFunction f c.switch).1 b sw hsw).2
    have hranges : ∀ f', f' ≠ f → sw.ranges f' = c.switch.ranges f' := fun f' hf =>
      (Switch.leavesRanges_removeFunction f f' hf c.switch).1 b sw hsw
    have hkeeps : Keeps c₀ (· = f) { c with switch := { sw with allocation := c.switch.allocation } } := by
      refine fun f' => ⟨(h f').1, fun hf => ⟨(h f').1, fun n hn => ?_⟩⟩
      rcases ((h f').2 id).reply n hn with hlt | ⟨ha, hv, hr⟩
      · exact .inl hlt
      · exact .inr ⟨ha, hv, (hranges f' hf).trans hr⟩
    refine Keeps.replied (fun _ h => h) hkeeps (d := sw.allocation) ?_ ?_
    · intro n hn
      cases b with
      | true =>
          rw [if_pos rfl] at hreply
          rw [hreply.1, Dict.get?_erase, if_pos rfl] at hn
          exact absurd hn (Option.some_ne_none _).symm
      | false =>
          rw [if_neg Bool.false_ne_true] at hreply
          rw [hreply.2.1, Dict.get?, hreply.1] at hn
          exact absurd hn (Option.some_ne_none _).symm
    · intro f' hf
      cases b with
      | true =>
          rw [if_pos rfl] at hreply
          rw [hreply.1, Dict.get?_erase, if_neg hf]
      | false =>
          rw [if_neg Bool.false_ne_true] at hreply
          rw [hreply.2.1]
  refine hclean.of_leaves ?_
  exact Leaves.ite ((leaves_onAllocator _).bind fun _ => Leaves.pure) Leaves.pure

theorem ends_onTimeout_clean (h : Clean c₀ c) :
    Ends (onTimeout cfg) c (fun _ => Clean c₀) fun _ => True := by
  unfold onTimeout
  refine ends_bind.2 (ends_get.2 (ends_ite (fun _ => ends_bind.2 (ends_throw.2 trivial)) fun _ => ?_))
  refine ends_bind.2 (ends_get.2 ?_)
  cases c.remaps with
  | none => exact ends_throw.2 trivial
  | some r =>
      refine ends_bind.2 ((h.of_leaves (Leaves.forM fun f _ => leaves_dropPeer f)).mono ?_
        fun _ _ => trivial)
      intro _ c₁ h₁
      refine ends_bind.2 (ends_get.2 ?_)
      cases c₁.remoteDrainInitiator with
      | some f => exact ends_resumeAllocation_clean h₁ f r
      | none =>
          refine ends_bind.2 (ends_get.2 (ends_ite (fun _ => ends_bind.2 (ends_throw.2 trivial))
            fun _ => ?_))
          exact ends_bind.2 (ends_modify.2 (ends_throw.2 trivial))

theorem ends_finishAck_clean (h : Clean c₀ c) (a : Ack) :
    Ends (finishAck cfg a) c (fun _ => Clean c₀) fun _ => True := by
  unfold finishAck
  cases a.resume with
  | none => exact h.of_leaves (leaves_popDrainQueue a.fid)
  | some p =>
      refine ends_bind.2 ((ends_resumeAllocation_clean h p.1 p.2).mono ?_ fun _ _ => trivial)
      exact fun _ c₂ h₂ => h₂.of_leaves (leaves_popDrainQueue a.fid)

theorem ends_onRemapAck_clean (h : Clean c₀ c) (d : RemapDigest) :
    Ends (onRemapAck cfg d) c (fun _ => Clean c₀) fun _ => True := by
  unfold onRemapAck
  refine ends_bind.2 ((h.of_leaves (leaves_readAck d)).mono ?_ fun _ _ => trivial)
  intro a c₁ h₁
  cases a with
  | none => exact ends_pure.2 h₁
  | some a => exact ends_finishAck_clean h₁ a

theorem ends_monitorStep_clean {req : Request} {next : Monitor} {x : EStateM Exn Controller Unit}
    (hx : Ends x c (fun _ => Clean c₀) fun _ => True) :
    Ends (monitorStep req next x) c (fun _ => Clean c₀) fun _ => True := by
  refine ⟨fun u c' hc' => ?_, fun _ _ _ => trivial⟩
  unfold monitorStep at hc'
  cases hxc : x c with
  | error ex c₁ =>
      rw [hxc] at hc'
      simp at hc'
  | ok u c₁ =>
      rw [hxc] at hc'
      obtain ⟨_, rfl⟩ := EStateM.Result.ok.inj hc'
      exact (hx.1 u c₁ hxc).congr rfl

theorem ends_takeRequest_clean (h : Clean c₀ c) :
    Ends (takeRequest cfg) c (fun _ => Clean c₀) fun _ => True := by
  unfold takeRequest
  cases hr : c.allocationRequests with
  | nil => exact ends_of_ok (a := ()) (t := c) (by simp only [hr]) h
  | cons req rest =>
      have htake : Clean c₀ { c with allocationRequests := rest } := h.congr rfl
      have hdealloc : Ends (do deallocate req.fid; leaveActive req.fid)
          { c with allocationRequests := rest } (fun _ => Clean c₀) fun _ => True := by
        refine ends_bind.2 ((ends_deallocate_clean htake req.fid).mono ?_ fun _ _ => trivial)
        exact fun _ c₁ h₁ => h₁.of_leaves (leaves_leaveActive req.fid)
      refine ⟨fun u c' hc' => ?_, fun _ _ _ => trivial⟩
      simp only [hr] at hc'
      split_ifs at hc'
      · exact (ends_monitorStep_clean (ends_allocate_clean htake req)).1 u c' hc'
      · exact (ends_monitorStep_clean hdealloc).1 u c' hc'
      · obtain ⟨_, rfl⟩ := EStateM.Result.ok.inj hc'
        exact htake

/-! ### Runs -/

/-- The handlers run without interruption, and nobody asks for a reset. -/
def Event.atomic : Event → Bool
  | .ackRead _ | .ackFinish | .reset => false
  | _ => true

/-- **A handler that runs without interruption and without an exception.** -/
def AtomicStep (cfg : ControllerConfig) (c : Controller) (e : Event) (c' : Controller) : Prop :=
  e.atomic = true ∧ StepOk cfg c e c'

/-- **Every handler raises the version of a function whose ranges it changes**, if it leaves it with
a complete allocation. -/
theorem AtomicStep.follows {e : Event} (h : AtomicStep cfg c e c') (f : Fid) : Follows c c' f := by
  obtain ⟨hatomic, -, u, hu⟩ := h
  suffices hclean : Clean c c' from (hclean f).2 id
  cases e with
  | malloc d =>
      obtain ⟨_, rfl⟩ := EStateM.Result.ok.inj hu
      refine (clean_refl c).congr ?_
      dsimp only
      split_ifs <;> rfl
  | remapAck d => exact (ends_onRemapAck_clean (clean_refl c) d).1 u c' hu
  | ackRead d => exact absurd hatomic Bool.false_ne_true
  | ackFinish => exact absurd hatomic Bool.false_ne_true
  | take => exact (ends_takeRequest_clean (clean_refl c)).1 u c' hu
  | timeout =>
      simp only [perform] at hu
      cases hm : c.monitor with
      | waiting req =>
          rw [hm] at hu
          exact (ends_monitorStep_clean (ends_onTimeout_clean (clean_refl c))).1 u c' hu
      | _ =>
          rw [hm] at hu
          obtain ⟨_, rfl⟩ := EStateM.Result.ok.inj hu
          exact clean_refl _
  | finish =>
      simp only [perform] at hu
      cases hm : c.monitor.current with
      | some req =>
          rw [hm] at hu
          obtain ⟨_, rfl⟩ := EStateM.Result.ok.inj hu
          exact (clean_refl c).congr rfl
      | none =>
          rw [hm] at hu
          obtain ⟨_, rfl⟩ := EStateM.Result.ok.inj hu
          exact clean_refl _
  | reset => exact absurd hatomic Bool.false_ne_true

theorem follows_of_run {es : List Event} (h : Run (AtomicStep cfg) c es c') (f : Fid) :
    Follows c c' f := by
  induction h with
  | nil => exact Follows.refl c f
  | snoc _ hstep ih => exact ih.trans (hstep.follows f)

/-- **A version identifies an allocation.**  When the switch replies with the same identifier (the
version, in sixteen bits) at two points of a run, the ranges of the function are the same. -/
theorem version_identifies {es es' : List Event} (h : Run (AtomicStep cfg) (init cfg) es c)
    (h' : Run (AtomicStep cfg) c es' c') {f : Fid} {n n' : ℕ}
    (hn : c.switch.allocation.get? f = some (.allocated n)) (hlt : n < 2 ^ 16)
    (hn' : c'.switch.allocation.get? f = some (.allocated n')) (hlt' : n' < 2 ^ 16)
    (hid : BitVec.ofNat 16 n = BitVec.ofNat 16 n') (k : GressStage) :
    (c'.switch.allocations k).get? f = (c.switch.allocations k).get? f := by
  obtain rfl : n = n' := by
    have := congrArg BitVec.toNat hid
    rwa [BitVec.toNat_ofNat, BitVec.toNat_ofNat, Nat.mod_eq_of_lt hlt, Nat.mod_eq_of_lt hlt'] at this
  -- the version that the controller keeps is the one of the reply
  have hversion : c.version f = n := by
    rcases (follows_of_run h f).reply n hn with ⟨hv, _⟩ | ⟨ha, _⟩
    · exact hv
    · exact absurd ha (by simp [init, Switch.init, Dict.get?, Dict.empty, Dict.lookup])
  rcases (follows_of_run h' f).reply n hn' with ⟨_, hraised⟩ | ⟨_, _, hr⟩
  · omega
  · exact congrFun hr k

theorem atomicRun_of_execute {es : List Event} (hatomic : ∀ e ∈ es, e.atomic = true)
    (h : execute cfg es c = some c') : Run (AtomicStep cfg) c es c' := by
  have hrun := run_of_execute cfg h
  clear h
  induction hrun with
  | nil => exact .nil _
  | snoc _ hstep ih =>
      refine .snoc (ih fun e he => hatomic e (List.mem_append_left _ he)) ⟨?_, hstep⟩
      exact hatomic _ (List.mem_append_right _ (List.mem_singleton.2 rfl))

/-- A function arrives, and its request is finished. -/
theorem version_identifies_arrival : ∃ c c',
    execute smallConfig [.malloc (arrival 1 1), .take] (init smallConfig) = some c ∧
      execute smallConfig [.finish] c = some c' ∧
      c.switch.allocation.get? 1 = some (.allocated 1) ∧
      ∀ k, (c'.switch.allocations k).get? 1 = (c.switch.allocations k).get? 1 := by
  have hcheck : ((execute smallConfig [.malloc (arrival 1 1), .take] (init smallConfig)).any
      fun c => decide (c.switch.allocation.get? 1 = some (.allocated 1)) &&
        (execute smallConfig [.finish] c).any fun c' =>
          decide (c'.switch.allocation.get? 1 = some (.allocated 1))) = true := by decide +kernel
  obtain ⟨c, hc, hany⟩ := (Option.any_eq_true _ _).1 hcheck
  rw [Bool.and_eq_true, decide_eq_true_eq] at hany
  obtain ⟨c', hc', hreply⟩ := (Option.any_eq_true _ _).1 hany.2
  rw [decide_eq_true_eq] at hreply
  refine ⟨c, c', hc, hc', hany.1, ?_⟩
  exact version_identifies (atomicRun_of_execute (by decide) hc)
    (atomicRun_of_execute (by decide) hc') hany.1 (by decide) hreply (by decide) rfl

end Controller

end ActiveRmt
