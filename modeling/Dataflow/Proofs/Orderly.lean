import Dataflow.Proofs.Canonical
import Dataflow.Proofs.Suspension

/-! # Orderly heaps

  A control variable belongs to the calls that wait for it. A host that never passes a control to
  the machine leaves it to them: no record holds it, no variable is bound to it, nobody but threads
  waits for it, and it is never bound to anything but unit. A heap is *orderly* if this is so and if
  all that it holds fits. A node is *trusted* if it fits and is no control.

  Allocation, waiting and binding keep a heap orderly if the nodes that they write are trusted, and
  what was trusted stays so. In an orderly heap a bind always succeeds: it serves the controls of
  one variable, and no control has controls of its own.
-/

namespace Dataflow

namespace Heap

variable {h h' h'' : Heap} {owner : MachineId}

/-! ### Trusted nodes -/

/-- The variable listens to another one, as the control of a call. -/
def IsControl (h : Heap) (c : VarRef) : Prop := ∃ v, h.Listens (.control c) v

/-- The node fits, and is no control. -/
structure Trusted (h : Heap) (owner : MachineId) (n : Node) : Prop where
  fits : h.Fits owner n
  free : ∀ c, n = .variable c → ¬ h.IsControl c

theorem Trusted.of_value {n : Node} (hn : h.Fits owner n) (hv : n.asVariable? = none) :
    h.Trusted owner n := by
  refine ⟨hn, ?_⟩
  rintro c rfl
  cases hv

/-- The second heap is a later state of the first, in which no older variable has become a
    control. -/
structure Keeps (h h' : Heap) : Prop where
  grows : h.Grows h'
  control : ∀ {c : VarRef}, h.InRange (.variable c) → h'.IsControl c → h.IsControl c

theorem Grows.inRange (hg : h.Grows h') {n : Node} (hn : h.InRange n) : h'.InRange n := by
  cases n with
  | record ref =>
    obtain ⟨r, hr⟩ := record_of_inRange hn
    exact inRange_of_record (hg.record hr)
  | «variable» v =>
    obtain ⟨c, hc⟩ := cell_of_inRange hn
    cases c with
    | bound x => exact inRange_of_cell (hg.bound hc)
    | unbound ls =>
      rcases hg.unbound hc with ⟨ms, hc'⟩ | ⟨x, hc'⟩
      · exact inRange_of_cell hc'
      · exact inRange_of_cell hc'
  | _ => trivial

theorem Keeps.refl (h : Heap) : h.Keeps h := ⟨.refl h, fun _ hc => hc⟩

theorem Keeps.trans (h₁ : h.Keeps h') (h₂ : h'.Keeps h'') : h.Keeps h'' :=
  ⟨h₁.grows.trans h₂.grows, fun hin hc => h₁.control hin (h₂.control (h₁.grows.inRange hin) hc)⟩

/-- What is trusted stays trusted. -/
theorem Trusted.keeps {n : Node} (hn : h.Trusted owner n) (hk : h.Keeps h') :
    h'.Trusted owner n := by
  have hfits : h'.Fits owner n := by
    cases n with
    | atom a => exact hn.fits
    | _ => exact hk.grows.inRange hn.fits.inRange
  refine ⟨hfits, ?_⟩
  rintro c rfl hc
  exact hn.free c rfl (hk.control hn.fits.inRange hc)

/-! ### Orderly heaps -/

/-- The variable has the value unit, or is waited for by threads alone. -/
def ServesThreads (h : Heap) (c : VarRef) : Prop :=
  h.cell c = .ok (.bound .unit) ∨
    ∃ ids : List ThreadId, h.cell c = .ok (.unbound (ids.map .thread))

theorem ServesThreads.inRange {c : VarRef} (hc : h.ServesThreads c) : h.InRange (.variable c) := by
  rcases hc with hc | ⟨ids, hc⟩
  · exact inRange_of_cell hc
  · exact inRange_of_cell hc

/-- The heap holds trusted nodes only, and controls wake threads. -/
structure Orderly (h : Heap) (owner : MachineId) : Prop where
  /-- Records are canonical. -/
  canonical : h.Canonical
  /-- Records hold trusted nodes. -/
  edges : ∀ {ref : RecordRef} {r : Record}, h.record ref = .ok r →
    ∀ n ∈ r.edges, h.Trusted owner n
  /-- Variables are bound to trusted nodes. -/
  values : ∀ {v : VarRef} {x : Node}, h.cell v = .ok (.bound x) → h.Trusted owner x
  /-- A control is bound to unit, or threads wait for it. -/
  controls : ∀ {c : VarRef}, h.IsControl c → h.ServesThreads c

namespace Orderly

/-- What fits is sound. -/
theorem sound (ho : h.Orderly owner) {n : Node} (hn : h.Fits owner n) : h.Sound owner n := by
  intro x hx
  unfold Holds at hx
  induction hx with
  | refl => exact hn
  | tail _ hstep _ =>
    rcases hstep with ⟨ref, r, -, hr, hmem⟩ | ⟨v, -, hc⟩
    · exact (ho.edges hr _ hmem).fits
    · exact (ho.values hc).fits

/-- A trusted node stands for a trusted one. -/
theorem trusted_deref (ho : h.Orderly owner) {n d : Node} (hn : h.Trusted owner n)
    (hd : h.deref n = .ok d) : h.Trusted owner d := by
  revert hn
  refine deref_induct (motive := fun n d => h.Trusted owner n → h.Trusted owner d) ?_ ?_ ?_ hd
  · intro n _ hn
    exact hn
  · intro v ls _ hn
    exact hn
  · intro v x d hc _ ih _
    exact ih (ho.values hc)

theorem deref (ho : h.Orderly owner) (hground : h.Grounded) {n : Node} (hn : h.Trusted owner n) :
    ∃ d, h.deref n = .ok d ∧ h.Trusted owner d := by
  obtain ⟨d, hd, -⟩ := (ho.sound hn.fits).deref hground
  exact ⟨d, hd, ho.trusted_deref hn hd⟩

/-- A later state of the heap is orderly if what was added to it is trusted. -/
theorem extend (ho : h.Orderly owner) (hk : h.Keeps h')
    (hrecords : ∀ {ref : RecordRef} {r : Record}, h'.record ref = .ok r → h.record ref = .ok r ∨
      r.Canonical ∧ ∀ n ∈ r.edges, h.Trusted owner n)
    (hvalues : ∀ {v : VarRef} {x : Node}, h'.cell v = .ok (.bound x) →
      h.cell v = .ok (.bound x) ∨ h.Trusted owner x)
    (hcontrols : ∀ {c : VarRef}, h'.IsControl c → h'.ServesThreads c) : h'.Orderly owner where
  canonical hr := by
    rcases hrecords hr with hr | ⟨hc, -⟩
    · exact ho.canonical hr
    · exact hc
  edges hr n hn := by
    rcases hrecords hr with hr | ⟨-, he⟩
    · exact (ho.edges hr n hn).keeps hk
    · exact (he n hn).keeps hk
  values hc := by
    rcases hvalues hc with hc | hx
    · exact (ho.values hc).keeps hk
    · exact hx.keeps hk
  controls := hcontrols

/-! ### Allocating -/

theorem allocateRecord (ho : h.Orderly owner) {r : Record} (hc : r.Canonical)
    (he : ∀ n ∈ r.edges, h.Trusted owner n) :
    h.Keeps (h.allocateRecord r).2 ∧ (h.allocateRecord r).2.Orderly owner := by
  have hk : h.Keeps (h.allocateRecord r).2 := ⟨grows_allocateRecord h r, fun _ hc => hc⟩
  refine ⟨hk, ho.extend hk (fun hr => ?_) .inl fun hc => ho.controls hc⟩
  rcases record_allocateRecord.mp hr with hr | ⟨-, rfl⟩
  · exact .inl hr
  · exact .inr ⟨hc, he⟩

/-- A new variable is no control. -/
theorem control_allocateVariable {c : VarRef} (hc : h.allocateVariable.2.IsControl c) :
    h.IsControl c := by
  obtain ⟨v, ls, hv, hl⟩ := hc
  rcases cell_allocateVariable.mp hv with hv | ⟨-, he⟩
  · exact ⟨v, ls, hv, hl⟩
  · cases he
    cases hl

theorem allocateVariable (ho : h.Orderly owner) :
    h.Keeps h.allocateVariable.2 ∧ h.allocateVariable.2.Orderly owner ∧
      h.allocateVariable.2.Trusted owner (.variable h.allocateVariable.1) := by
  have hk : h.Keeps h.allocateVariable.2 :=
    ⟨grows_allocateVariable h, fun _ hc => control_allocateVariable hc⟩
  have hold : ∀ {v : VarRef} {x : Node}, h.allocateVariable.2.cell v = .ok (.bound x) →
      h.cell v = .ok (.bound x) := by
    intro v x hv
    rcases cell_allocateVariable.mp hv with hv | ⟨-, he⟩
    · exact hv
    · cases he
  refine ⟨hk, ho.extend hk .inl (fun hv => .inl (hold hv)) fun hc => ?_, ?_, ?_⟩
  · rcases ho.controls (control_allocateVariable hc) with hc | ⟨ids, hc⟩
    · exact .inl (cell_allocateVariable_of_ok hc)
    · exact .inr ⟨ids, cell_allocateVariable_of_ok hc⟩
  · exact inRange_of_cell (cell_allocateVariable.mpr (.inr ⟨rfl, rfl⟩))
  · -- controls lie in the heap, and the new variable did not
    rintro c he hc
    cases he
    have hin := (ho.controls (control_allocateVariable hc)).inRange
    simp [InRange, containsVariable, Heap.allocateVariable] at hin

/-! ### Waiting -/

/-- A thread starts to wait. -/
theorem park (ho : h.Orderly owner) {v : VarRef} {id : ThreadId} {parked : Bool}
    (ha : h.addListener v (.thread id) = .ok (parked, h')) : h.Keeps h' ∧ h'.Orderly owner := by
  have hcontrol : ∀ {c : VarRef}, h'.IsControl c → h.IsControl c := by
    rintro c ⟨w, hl⟩
    rcases listens_before_addListener ha hl with hl | ⟨he, -⟩
    · exact ⟨w, hl⟩
    · cases he
  have hk : h.Keeps h' := ⟨grows_addListener ha, fun _ hc => hcontrol hc⟩
  refine ⟨hk, ho.extend hk (fun hr => ?_) (fun hv => ?_) fun {c} hctl => ?_⟩
  · rw [record_congr (records_addListener ha)] at hr
    exact .inl hr
  · rcases cell_addListener ha hv with hv | ⟨-, ls, -, -, he⟩
    · exact .inl hv
    · cases he
  · rcases ho.controls (hcontrol hctl) with hc | ⟨ids, hc⟩
    · exact .inl ((grows_addListener ha).bound hc)
    -- if it is the control that the thread waits for, the thread is one more in its list
    · rcases addListener_cases ha with ⟨-, ls, hv, ⟨-, rfl⟩ | ⟨-, rfl⟩⟩ | ⟨-, rfl, -⟩
      · exact .inr ⟨ids, hc⟩
      · by_cases hcv : c = v
        · subst hcv
          rw [hc] at hv
          cases hv
          refine .inr ⟨ids ++ [id], ?_⟩
          rw [cell_setCell_self _ (lt_of_cell hc), List.map_append]
          rfl
        · exact .inr ⟨ids, by rw [cell_setCell_ne _ hcv]; exact hc⟩
      · exact .inr ⟨ids, hc⟩

end Orderly

/-- The second heap is the first with a new variable `c` that listens to some of the others. -/
structure Hears (h h' : Heap) (c : VarRef) : Prop where
  keeps : h.Keeps h'
  records : h'.records = h.records
  values : ∀ {v : VarRef} {x : Node}, h'.cell v = .ok (.bound x) → h.cell v = .ok (.bound x)
  fresh : ¬ h.InRange (.variable c)
  cell : h'.cell c = .ok (.unbound [])
  /-- Controls that there were before are as they were. -/
  served : ∀ {w : VarRef}, h.IsControl w → h'.cell w = h.cell w
  /-- The new variable may be a control, and no other becomes one. -/
  controls : ∀ {w : VarRef}, h'.IsControl w → w = c ∨ h.IsControl w

theorem Orderly.hears {c : VarRef} (ho : h.Orderly owner) (hh : h.Hears h' c) :
    h'.Orderly owner := by
  refine ho.extend hh.keeps (fun hr => ?_) (fun hv => .inl (hh.values hv)) fun hc => ?_
  · rw [record_congr hh.records] at hr
    exact .inl hr
  · rcases hh.controls hc with rfl | hc
    · exact .inr ⟨[], hh.cell⟩
    · unfold ServesThreads
      rw [hh.served hc]
      exact ho.controls hc

theorem Orderly.hears_allocateVariable (ho : h.Orderly owner) :
    h.Hears h.allocateVariable.2 h.allocateVariable.1 where
  keeps := ho.allocateVariable.1
  records := rfl
  values hv := by
    rcases cell_allocateVariable.mp hv with hv | ⟨-, he⟩
    · exact hv
    · cases he
  fresh := by simp [InRange, containsVariable, Heap.allocateVariable]
  cell := cell_allocateVariable.mpr (.inr ⟨rfl, rfl⟩)
  served {w} hw := by
    obtain ⟨cell, hcell⟩ := cell_of_inRange (ho.controls hw).inRange
    rw [hcell, cell_allocateVariable_of_ok hcell]
  controls hc := .inr (Orderly.control_allocateVariable hc)

/-- The new variable listens to one more variable, which is no control. -/
theorem Hears.listen {c v : VarRef} (hh : h.Hears h' c) (hin : h.InRange (.variable v))
    (hv : ¬ h.IsControl v) {parked : Bool}
    (ha : h'.addListener v (.control c) = .ok (parked, h'')) : h.Hears h'' c := by
  have hne : c ≠ v := by
    rintro rfl
    exact hh.fresh hin
  have hcontrols : ∀ {w : VarRef}, h''.IsControl w → w = c ∨ h.IsControl w := by
    rintro w ⟨u, hl⟩
    rcases listens_before_addListener ha hl with hl | ⟨he, -⟩
    · exact hh.controls ⟨u, hl⟩
    · cases he
      exact .inl rfl
  -- no cell but that of `v` is touched
  have hother : ∀ {w : VarRef}, w ≠ v → h''.cell w = h'.cell w := by
    intro w hw
    rcases addListener_cases ha with ⟨-, ls, -, ⟨-, rfl⟩ | ⟨-, rfl⟩⟩ | ⟨-, rfl, -⟩
    · rfl
    · exact cell_setCell_ne _ hw
    · rfl
  refine
    { keeps := ⟨hh.keeps.grows.trans (grows_addListener ha), fun hin' hc => ?_⟩
      records := (records_addListener ha).trans hh.records
      values := fun hw => ?_
      fresh := hh.fresh
      cell := (hother hne).trans hh.cell
      served := fun hw => ?_
      controls := hcontrols }
  · rcases hcontrols hc with rfl | hc
    · exact absurd hin' hh.fresh
    · exact hc
  · rcases cell_addListener ha hw with hw | ⟨-, ls, -, -, he⟩
    · exact hh.values hw
    · cases he
  · rw [hother fun he => hv (he ▸ hw)]
    exact hh.served hw

/-! ### Binding -/

/-- Writing a trusted value into an unbound cell, and nothing but unit into that of a control. -/
theorem Orderly.write (ho : h.Orderly owner) {v : VarRef} {ls : List Listener} {x : Node}
    (hv : h.cell v = .ok (.unbound ls)) (hx : h.Trusted owner x)
    (hunit : h.IsControl v → x = .unit) :
    h.Keeps (h.setCell v (.bound x)) ∧ (h.setCell v (.bound x)).Orderly owner := by
  -- writing a value makes no new controls
  have hcontrol : ∀ {c : VarRef}, (h.setCell v (.bound x)).IsControl c → h.IsControl c := by
    rintro c ⟨w, ks, hw, hl⟩
    rw [cell_setCell (lt_of_cell hv)] at hw
    split at hw
    · cases hw
    · exact ⟨w, ks, hw, hl⟩
  have hk : h.Keeps (h.setCell v (.bound x)) :=
    ⟨grows_setCell hv (.inr ⟨x, rfl⟩), fun _ hc => hcontrol hc⟩
  refine ⟨hk, ho.extend hk .inl (fun hw => ?_) fun {c} hc => ?_⟩
  · rw [cell_setCell (lt_of_cell hv)] at hw
    split at hw
    · cases hw
      exact .inr hx
    · exact .inl hw
  · unfold ServesThreads
    rw [cell_setCell (lt_of_cell hv)]
    split
    · next he =>
      subst he
      rw [hunit (hcontrol hc)]
      exact .inl rfl
    · exact ho.controls (hcontrol hc)

theorem trusted_unit : h.Trusted owner .unit := .of_value trivial rfl

end Heap

/-! ### A bind succeeds -/

namespace Machine

variable {m m' : Machine} {owner : MachineId}

/-- Serving the controls of a variable succeeds. -/
theorem serveControl_ok {n : Nat} {cs : List VarRef} (ho : m.heap.Orderly owner)
    (hcs : ∀ c ∈ cs, m.heap.ServesThreads c) :
    ∃ m', cs.foldlM (serveControl fun m control => bindWithin (n + 1) m control .unit) (.ok m) =
      .ok (.ok m') ∧ m'.heap.Orderly owner ∧ m.heap.Keeps m'.heap := by
  induction cs generalizing m with
  | nil => exact ⟨m, rfl, ho, .refl _⟩
  | cons c cs ih =>
    have hrest : ∀ c' ∈ cs, m.heap.ServesThreads c' := fun c' hc' => hcs c' (.tail _ hc')
    rw [List.foldlM_cons]
    rcases hcs c (List.mem_cons_self ..) with hc | ⟨ids, hc⟩
    · -- the control has been bound before
      obtain ⟨m', hm', ho', hk⟩ := ih ho hrest
      refine ⟨m', ?_, ho', hk⟩
      rw [serveControl_of_determined (Heap.deref_bound hc), ok_bind]
      exact hm'
    · obtain ⟨hk₁, ho₁⟩ := ho.write hc Heap.trusted_unit fun _ => rfl
      have hrest₁ : ∀ c' ∈ cs, (m.withBound c .unit).heap.ServesThreads c' := by
        intro c' hc'
        unfold Heap.ServesThreads withBound
        rw [Heap.cell_setCell (Heap.lt_of_cell hc)]
        split
        · exact .inl rfl
        · exact hrest c' hc'
      obtain ⟨m', hm', ho', hk⟩ :=
        ih (m := { m.withBound c .unit with scheduler := m.scheduler.wake ids }) ho₁ hrest₁
      refine ⟨m', ?_, ho', hk₁.trans hk⟩
      rw [serveControl_of_unbound (Heap.deref_unbound hc), bindWithin_control hc, ok_bind]
      exact hm'

/-- In an orderly heap a variable without a value can be bound to any trusted node. -/
theorem bind_ok (ho : m.heap.Orderly owner) (hground : m.heap.Grounded) {v target : VarRef}
    {x : Node} (hv : m.heap.Trusted owner (.variable v)) (hx : m.heap.Trusted owner x)
    (hd : m.heap.deref (.variable v) = .ok (.variable target)) :
    ∃ m', m.bind v x = .ok (.ok m') ∧ m'.heap.Orderly owner ∧ m.heap.Keeps m'.heap := by
  obtain ⟨d, hdx, -⟩ := ho.deref hground hx
  obtain ⟨ls, hcell⟩ := Heap.cell_of_deref hd
  -- there is a variable, so that one bind can be nested in another
  obtain ⟨n, hn⟩ : ∃ n, m.heap.variableCount + 1 = n + 1 + 1 := by
    have hlt := Heap.lt_of_cell hcell
    exact ⟨m.heap.variableCount - 1, by unfold Heap.variableCount; omega⟩
  unfold bind
  rw [hn]
  by_cases he : d = .variable target
  · subst he
    exact ⟨m, bindWithin_self hd hdx _, ho, .refl _⟩
  · have htarget := ho.trusted_deref hv hd
    obtain ⟨hk₁, ho₁⟩ := ho.write hcell hx fun hc => absurd hc (htarget.free target rfl)
    -- the controls that listen to the target are not the target
    have hcs : ∀ c ∈ ls.filterMap Listener.control?, (m.withBound target x).heap.ServesThreads c := by
      intro c hc
      obtain ⟨l, hl, hlc⟩ := List.mem_filterMap.mp hc
      cases l with
      | thread id => cases hlc
      | control c' =>
        cases hlc
        have hcontrol : m.heap.IsControl c := ⟨target, ls, hcell, hl⟩
        have hne : c ≠ target := fun e => htarget.free target rfl (e ▸ hcontrol)
        unfold Heap.ServesThreads withBound
        rw [Heap.cell_setCell_ne _ hne]
        exact ho.controls hcontrol
    obtain ⟨served, hs, ho', hk⟩ := serveControl_ok (n := n) ho₁ hcs
    rw [bindWithin_unbound hd hdx he hcell, hs, ok_bind]
    exact ⟨_, rfl, ho', hk₁.trans hk⟩

end Machine

end Dataflow
