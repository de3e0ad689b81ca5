import Mathlib.Data.Fintype.Card
import Dataflow.Proofs.Idle
import Dataflow.Proofs.Interning

/-! # Nothing is left over

  A collection copies what is alive, and looks through the listeners of variables to the controls of
  calls. In the hands of an honest host that keeps its hands off controls, nothing that is copied on
  the way is left without a use: a control that has been bound is bound to unit, and takes nothing
  with it. So everything in the new heap and in the new table is alive again, and the next collection
  finds nothing to drop.
-/

namespace Dataflow

theorem Record.IsImage.edge_image {φ : Node → Node} {r r' : Record} (him : r.IsImage φ r') {n : Node}
    (hn : n ∈ r.edges) : φ n ∈ r'.edges := by
  have hfield : n ∈ r.fields → φ n ∈ r'.edges := by
    intro hn
    apply Heap.field_mem_edges
    rw [him.fields]
    exact List.mem_map_of_mem hn
  rcases List.mem_cons.mp hn with rfl | hn
  · rw [← him.label]
    exact Heap.label_mem_edges r'
  rcases List.mem_append.mp hn with hn | hn
  · rcases him.arity with ⟨ha, -⟩ | ⟨names, names', ha, ha', hnames⟩
    · rw [ha] at hn
      cases hn
    · rw [ha] at hn
      obtain ⟨f, hf, rfl⟩ := List.mem_map.mp hn
      have himage : φ f.toNode ∈ names'.map Feature.toNode := by
        rw [hnames]
        exact List.mem_map_of_mem hf
      obtain ⟨f', hf', he⟩ := List.mem_map.mp himage
      rw [← he]
      exact Heap.feature_mem_edges ha' hf'
  · exact hfield hn

namespace Machine

variable {m m' : Machine} {held : List Node} {φ : Node → Node}

/-! ### Prudent hosts -/

/-- A machine in the hands of an honest host that never passes a control, and what the host has
    received since the last collection. -/
inductive Prudent : Machine → List Node → Prop where
  | new (id : MachineId) (c : Configuration) : Prudent (Machine.new id c) []
  | step {m m' : Machine} {held received : List Node} (op : Operation) : Prudent m held →
      (∀ n ∈ op.nodes, MayPass held n) → (∀ c, .variable c ∈ op.nodes → ¬ m.heap.IsControl c) →
      op.perform m = .ok (received, m') → Prudent m' (surviving m m' held ++ received)

theorem Prudent.honest (hm : Prudent m held) : Honest m held := by
  induction hm with
  | new id c => exact .new id c
  | step op _ hop _ hp ih => exact ih.step op hop hp

/-- A request on trusted nodes is a step of a careful host, or leaves the machine. -/
theorem Operation.carefulStep {op : Operation} {received : List Node}
    (hn : ∀ n ∈ op.nodes, m.Trusts n) (hp : op.perform m = .ok (received, m')) :
    m' = m ∨ CarefulStep m m' := by
  have hone : ∀ {n : Node}, op.nodes = [n] → m.Trusts n :=
    fun he => hn _ (he ▸ List.mem_singleton.mpr rfl)
  cases op with
  -- as for steps of a host, with the trust in what is handed over carried along
  | newAtom content => cases hp; exact .inr (.newAtom m content)
  | newVariable => cases hp; exact .inr (.newVariable m)
  | addRoot n => cases hp; exact .inr (.addRoot m n (hone rfl))
  | takeOutput => cases hp; exact .inr (.takeOutput m)
  | newException kind arguments => cases hp; exact .inr (.newException m kind arguments hn)
  | buildRecord label fields =>
    obtain ⟨made, hb, hp⟩ := bind_eq_ok.mp hp
    cases made with
    | error e => cases hp; exact .inl rfl
    | ok made =>
      cases hp
      refine .inr (.buildRecord label fields (hn _ (List.mem_cons_self ..)) (fun e he => ?_) hb)
      have hmem : ∀ n ∈ [e.1, e.2], m.Trusts n := fun n hne =>
        hn n (List.mem_cons_of_mem _ (List.mem_flatMap.mpr ⟨e, he, hne⟩))
      exact ⟨hmem _ (List.mem_cons_self ..), hmem _ (List.mem_cons_of_mem _ (List.mem_cons_self ..))⟩
  | buildTuple label values =>
    obtain ⟨made, hb, hp⟩ := bind_eq_ok.mp hp
    cases made with
    | error e => cases hp; exact .inl rfl
    | ok made =>
      cases hp
      exact .inr (.buildTuple label values (hn _ (List.mem_cons_self ..))
        (fun x hx => hn x (List.mem_cons_of_mem _ hx)) hb)
  | bind v value =>
    obtain ⟨bound, hb, hp⟩ := bind_eq_ok.mp hp
    cases bound with
    | error e => cases hp; exact .inl rfl
    | ok bound =>
      cases hp
      exact .inr (.bind v value (hn _ (List.mem_cons_self ..))
        (hn _ (List.mem_cons_of_mem _ (List.mem_cons_self ..))) hb)
  | call b operands arity =>
    obtain ⟨⟨o, m₁⟩, hcall, hp⟩ := bind_eq_ok.mp hp
    cases hp
    exact .inr (.call b operands hn hcall)
  | dotNumber value i =>
    obtain ⟨⟨o, m₁⟩, hcall, hp⟩ := bind_eq_ok.mp hp
    cases hp
    exact .inr (.dotNumber value i (hone rfl) hcall)
  | spawn code registers =>
    rw [Operation.perform] at hp
    cases hs : m.spawn code registers with
    | error e => rw [hs] at hp; cases hp; exact .inl rfl
    | ok r => rw [hs] at hp; cases hp; exact .inr (.spawn code registers hn hs)
  | kill id =>
    rw [Operation.perform] at hp
    cases hk : m.kill id with
    | error e => rw [hk] at hp; cases hp; exact .inl rfl
    | ok m₁ => rw [hk] at hp; cases hp; exact .inr (.kill id hk)
  | runNext =>
    obtain ⟨⟨ran, m₁⟩, hr, hp⟩ := bind_eq_ok.mp hp
    cases hp
    exact .inr (.runNext hr)
  | run =>
    obtain ⟨⟨report, m₁⟩, hr, hp⟩ := bind_eq_ok.mp hp
    cases hp
    exact .inr (.run hr)
  | collect =>
    obtain ⟨m₁, hcollect, hp⟩ := bind_eq_ok.mp hp
    cases hp
    exact .inr (.collect hcollect)
  -- the others only read
  | root slot => cases hp; exact .inl rfl
  | thread id => cases hp; exact .inl rfl
  | _ =>
    obtain ⟨answer, -, hp⟩ := bind_eq_ok.mp hp
    cases hp
    exact .inl rfl

theorem Prudent.orderly (hm : Prudent m held) : m.Orderly := by
  induction hm with
  | new id c => exact orderly_new id c
  | step op hm hop hfree hp ih =>
    have hk := hm.honest.kept
    have htrusts : ∀ n ∈ op.nodes, _ := fun n hn =>
      (⟨hk.mayPass (hop n hn), fun c he => hfree c (he ▸ hn)⟩ : Machine.Trusts _ n)
    rcases op.carefulStep htrusts hp with rfl | hstep
    · exact ih
    · exact ih.step hk.reachable.waits hstep

/-! ### What is alive stays alive -/

/-- What the machine starts from is moved to what the new machine starts from. -/
theorem Relocation.start_image (hr : Relocation m m' φ)
    (hw : Waits m.heap m.scheduler.threads m.scheduler.spawned) {n : Node} (hn : n ∈ m.liveNodes) :
    m'.Live (φ n) := by
  rcases List.mem_append.mp hn with hn | hn
  · apply Heap.Reaches.start
    apply List.mem_append_left
    rw [hr.roots]
    exact List.mem_map_of_mem hn
  · obtain ⟨t, ht, hn⟩ := List.mem_flatMap.mp hn
    have ht' : t.relocate φ ∈ m'.scheduler.threads := by
      rw [hr.threads]
      exact List.mem_map_of_mem ht
    rcases Thread.mem_nodes.mp hn with hn | ⟨v, hs, rfl⟩ | hs
    · exact live_register ht' (List.mem_map_of_mem hn)
    · -- the variable of a waiting thread is unbound, so the thread goes on waiting
      obtain ⟨ls, hv⟩ := (hw.parked t ht hs).unbound
      obtain ⟨w, hφ, -⟩ := hr.var (live_waiting ht hs) hv
      rw [hφ]
      apply live_waiting ht'
      simp [Thread.relocate, ThreadState.relocate, hs, hφ]
    · apply live_failed ht'
      simp [Thread.relocate, ThreadState.relocate, hs]

/-- What is alive is moved to what is alive, but for controls that are bound: they are moved to
    unit. -/
theorem Relocation.live_image (hr : Relocation m m' φ) (ho : m.Orderly)
    (hw : Waits m.heap m.scheduler.threads m.scheduler.spawned) {n : Node} (hn : m.Live n) :
    m'.Live (φ n) ∨ φ n = .unit := by
  unfold Live at hn
  -- along the path that keeps the node alive; a control that has been served ends as unit, and
  -- nothing follows it
  induction hn with
  | start hn => exact .inl (hr.start_image hw hn)
  | @edge ref r n hlive href hmem ih =>
    obtain ⟨ref', r', hφ, href', him⟩ := hr.record hlive href
    rw [hφ] at ih
    have hlive' : m'.Live (.record ref') := ih.resolve_right nofun
    exact .inl (hlive'.edge href' (him.edge_image hmem))
  | @value v n hlive hv ih =>
    obtain ⟨d, hd, -⟩ := hr.inRange (hlive.value hv)
    have hsame : φ (.variable v) = φ n := by
      rw [hr.deref (hlive.value hv) hd]
      exact hr.deref hlive (Heap.deref_bound hv ▸ hd)
    rwa [hsame] at ih
  | @control v c ls hlive hv hl ih =>
    have hlc : m.Live (.variable c) := hlive.control hv hl
    rcases ho.heap.controls ⟨v, ls, hv, hl⟩ with hunit | ⟨ids, hids⟩
    · have hd : m.heap.deref (.variable c) = .ok .unit := Heap.deref_bound hunit
      right
      rw [hr.deref hlc hd]
      exact hr.inline (hlc.deref hd) rfl
    · obtain ⟨w, hφ, hw'⟩ := hr.var hlive hv
      obtain ⟨c', hφc, -⟩ := hr.var hlc hids
      rw [hφ] at ih
      have hlive' : m'.Live (.variable w) := ih.resolve_right nofun
      left
      rw [hφc]
      apply hlive'.control hw'
      exact List.mem_filterMap.mpr ⟨_, hl, by simp [Listener.relocate, hφc, Node.asVariable?]⟩

/-! ### Tidy machines -/

/-- All that is in the heap and in the table is alive, and no variable is bound. -/
structure Tidy (m : Machine) : Prop where
  records : ∀ {ref : RecordRef} {r : Record}, m.heap.record ref = .ok r → m.Live (.record ref)
  vars : ∀ {v : VarRef} {c : Cell}, m.heap.cell v = .ok c → m.Live (.variable v)
  atoms : ∀ content ∈ m.atoms.contents, m.Live (.atom ⟨m.atoms.id, content⟩)
  unbound : ∀ {v : VarRef} {x : Node}, m.heap.cell v ≠ .ok (.bound x)

/-- A collection leaves an orderly machine tidy. -/
theorem Orderly.tidy_collect (ho : m.Orderly)
    (hw : Waits m.heap m.scheduler.threads m.scheduler.spawned) (hc : m.collect = .ok m') :
    m'.Tidy := by
  obtain ⟨φ, hr⟩ := relocation_of_collect hc
  refine ⟨fun hr' => ?_, fun hv' => ?_, fun content hmem => ?_, fun hv' => ?_⟩
  · obtain ⟨ref, r, hlive, -, hφ⟩ := hr.record_surjective hr'
    rw [← hφ]
    exact (hr.live_image ho hw hlive).resolve_right (by rw [hφ]; nofun)
  · obtain ⟨v, ls, hlive, -, hφ⟩ := hr.var_surjective hv'
    rw [← hφ]
    exact (hr.live_image ho hw hlive).resolve_right (by rw [hφ]; nofun)
  · obtain ⟨a, hlive, rfl⟩ := ((contents_collect hc).2 content).mp hmem
    obtain ⟨hφ, -⟩ := hr.atom hlive
    rw [← hφ]
    exact (hr.live_image ho hw hlive).resolve_right (by rw [hφ]; nofun)
  · obtain ⟨v, ls, -, -, -, he⟩ := hr.cell_before hv'
    cases he

/-! ### Counting -/

/-- There are at most as many numbers below the second bound as below the first if each of them
    comes from one of those, and no two from the same. -/
theorem le_of_origins {k k' : Nat} {R : Nat → Nat → Prop} (hfrom : ∀ j < k', ∃ i < k, R i j)
    (hone : ∀ i j j', R i j → R i j' → j = j') : k' ≤ k := by
  choose origin hlt hR using hfrom
  have hinj : Function.Injective fun j : Fin k' => (⟨origin j j.2, hlt j j.2⟩ : Fin k) := by
    intro j j' he
    have he : origin j j.2 = origin j' j'.2 := congrArg Fin.val he
    have hR' := hR j' j'.2
    rw [← he] at hR'
    exact Fin.ext (hone _ _ _ (hR j j.2) hR')
  simpa using Fintype.card_le_of_injective _ hinj

theorem Relocation.recordCount_le (hr : Relocation m m' φ) :
    m'.heap.recordCount ≤ m.heap.recordCount := by
  refine le_of_origins (R := fun i j => φ (.record ⟨i⟩) = .record ⟨j⟩) (fun j hj => ?_) ?_
  · obtain ⟨r', hr'⟩ := Heap.lt_recordCount_iff.mp hj
    obtain ⟨ref, r, -, href, hφ⟩ := hr.record_surjective hr'
    exact ⟨ref.index, Heap.lt_recordCount_iff.mpr ⟨r, href⟩, hφ⟩
  · intro i j j' hj hj'
    rw [hj] at hj'
    cases hj'
    rfl

theorem Relocation.variableCount_le (hr : Relocation m m' φ) :
    m'.heap.variableCount ≤ m.heap.variableCount := by
  refine le_of_origins (R := fun i j => φ (.variable ⟨i⟩) = .variable ⟨j⟩) (fun j hj => ?_) ?_
  · obtain ⟨c', hc'⟩ := Heap.lt_variableCount_iff.mp hj
    obtain ⟨v, ls, -, hv, hφ⟩ := hr.var_surjective hc'
    exact ⟨v.index, Heap.lt_of_cell hv, hφ⟩
  · intro i j j' hj hj'
    rw [hj] at hj'
    cases hj'
    rfl

/-- A tidy machine loses no record by a collection. -/
theorem Tidy.recordCount_le (ht : m.Tidy) (hr : Relocation m m' φ) :
    m.heap.recordCount ≤ m'.heap.recordCount := by
  refine le_of_origins (R := fun i j => m.Live (.record ⟨j⟩) ∧ φ (.record ⟨j⟩) = .record ⟨i⟩)
    (fun j hj => ?_) ?_
  · obtain ⟨r, href⟩ := Heap.lt_recordCount_iff.mp hj
    obtain ⟨ref', r', hφ, href', -⟩ := hr.record (ht.records href) href
    exact ⟨ref'.index, Heap.lt_recordCount_iff.mpr ⟨r', href'⟩, ht.records href, hφ⟩
  · rintro i j j' ⟨hlive, hφ⟩ ⟨hlive', hφ'⟩
    have he := hr.record_injective hlive hlive' (hφ.trans hφ'.symm)
    cases he
    rfl

/-- Nor does it lose a variable. -/
theorem Tidy.variableCount_le (ht : m.Tidy) (hr : Relocation m m' φ) :
    m.heap.variableCount ≤ m'.heap.variableCount := by
  refine le_of_origins (R := fun i j => (∃ ls, m.heap.cell ⟨j⟩ = .ok (.unbound ls)) ∧
    φ (.variable ⟨j⟩) = .variable ⟨i⟩) (fun j hj => ?_) ?_
  · obtain ⟨c, hc⟩ := Heap.lt_variableCount_iff.mp hj
    cases c with
    | bound x => exact absurd hc ht.unbound
    | unbound ls =>
      obtain ⟨w, hφ, hw⟩ := hr.var (ht.vars hc) hc
      exact ⟨w.index, Heap.lt_of_cell hw, ⟨ls, hc⟩, hφ⟩
  · rintro i j j' ⟨⟨ls, hj⟩, hφ⟩ ⟨⟨ks, hj'⟩, hφ'⟩
    have he := hr.var_injective (ht.vars hj) (ht.vars hj') hj hj' (hφ.trans hφ'.symm)
    cases he
    rfl

/-- The table of a stocked machine does not grow by a collection. -/
theorem Stocked.atoms_collect_le (hs : m.Stocked) (hc : m.collect = .ok m') :
    m'.atoms.size ≤ m.atoms.size := by
  obtain ⟨hnodup, hcontents⟩ := contents_collect hc
  apply List.Subperm.length_le
  apply List.subperm_of_subset hnodup
  intro content hmem
  obtain ⟨a, hlive, rfl⟩ := (hcontents content).mp hmem
  exact (listed_atom.mp (hs.listed_live hlive)).1

theorem Tidy.atoms_le_collect (ht : m.Tidy) (hnodup : m.atoms.contents.Nodup)
    (hc : m.collect = .ok m') : m.atoms.size ≤ m'.atoms.size := by
  apply List.Subperm.length_le
  apply List.subperm_of_subset hnodup
  intro content hmem
  exact ((contents_collect hc).2 content).mpr ⟨_, ht.atoms content hmem, rfl⟩

/-- A collection makes nothing more. -/
theorem Stocked.stats_le (hs : m.Stocked) (hc : m.collect = .ok m') :
    (stats m m').atoms.2 ≤ (stats m m').atoms.1 ∧ (stats m m').records.2 ≤ (stats m m').records.1 ∧
      (stats m m').vars.2 ≤ (stats m m').vars.1 := by
  obtain ⟨φ, hr⟩ := relocation_of_collect hc
  exact ⟨hs.atoms_collect_le hc, hr.recordCount_le, hr.variableCount_le⟩

/-- A collection of a tidy machine changes none of the counts. -/
theorem Tidy.stats_eq (ht : m.Tidy) (hs : m.Stocked) (hc : m.collect = .ok m') :
    (stats m m').atoms.1 = (stats m m').atoms.2 ∧ (stats m m').records.1 = (stats m m').records.2 ∧
      (stats m m').vars.1 = (stats m m').vars.2 := by
  obtain ⟨φ, hr⟩ := relocation_of_collect hc
  obtain ⟨hatoms, hrecords, hvars⟩ := hs.stats_le hc
  exact ⟨Nat.le_antisymm (ht.atoms_le_collect hs.nodup hc) hatoms,
    Nat.le_antisymm (ht.recordCount_le hr) hrecords, Nat.le_antisymm (ht.variableCount_le hr) hvars⟩

/-! ### The theorem -/

theorem Prudent.collect_ok (hm : Prudent m held) : ∃ m', m.collect = .ok m' ∧ Prudent m' [] := by
  obtain ⟨m', hc, -⟩ := hm.orderly.collect hm.honest.kept.reachable.waits
  have hp : Operation.collect.perform m = .ok ([], m') := by
    rw [Operation.perform, hc]
    rfl
  have hm' := hm.step .collect (by simp [Operation.nodes]) (by simp [Operation.nodes]) hp
  rw [surviving_collect (.of_eq rfl rfl rfl) hc] at hm'
  exact ⟨m', hc, hm'⟩

/-- In the hands of a prudent host a collection leaves nothing over: all records, variables and atoms
    afterwards are alive, and no variable is bound. None of the three counts has grown, and another
    collection right after it changes none of them. -/
theorem Prudent.collect_leaves_nothing_over (hm : Prudent m held) :
    ∃ m', m.collect = .ok m' ∧ m'.Tidy ∧
      (stats m m').atoms.2 ≤ (stats m m').atoms.1 ∧
      (stats m m').records.2 ≤ (stats m m').records.1 ∧
      (stats m m').vars.2 ≤ (stats m m').vars.1 ∧
      ∃ m'', m'.collect = .ok m'' ∧
        (stats m' m'').atoms.1 = (stats m' m'').atoms.2 ∧
        (stats m' m'').records.1 = (stats m' m'').records.2 ∧
        (stats m' m'').vars.1 = (stats m' m'').vars.2 := by
  obtain ⟨known, hl⟩ := hm.honest.ledger
  obtain ⟨m', hc, hm'⟩ := hm.collect_ok
  obtain ⟨m'', hc', -⟩ := hm'.collect_ok
  have htidy := hm.orderly.tidy_collect hl.reconciled.waits hc
  have hs := hl.reconciled.stocked
  obtain ⟨hatoms, hrecords, hvars⟩ := hs.stats_le hc
  exact ⟨m', hc, htidy, hatoms, hrecords, hvars, m'', hc', htidy.stats_eq (hs.collect hc) hc'⟩

theorem not_isControl_of_forall {c : VarRef}
    (hcells : ∀ cell ∈ m.heap.cells.toList, Node.variable c ∉ cellControls cell) :
    ¬ m.heap.IsControl c := by
  rintro ⟨v, ls, hv, hl⟩
  have hin := Array.mem_toList_iff.mpr (Array.mem_of_getElem? (Heap.cell_eq_ok_iff.mp hv))
  exact hcells _ hin (mem_controls.mpr ⟨c, hl, rfl⟩)

/-- A thread has waited for one of two variables, and the host has bound the first. The control of the
    call is still listed by the second, and an atom is not used. -/
def disused : Machine :=
  { id := ⟨0⟩
    atoms := { id := ⟨⟨0⟩, 0⟩, contents := ["lost"] }
    heap := {
      records := #[⟨.unit, .tuple, [.variable ⟨0⟩, .variable ⟨1⟩]⟩]
      cells := #[.bound .unit, .unbound [.control ⟨2⟩], .bound .unit]
      allocated := 4 }
    scheduler := {
      ready := [⟨1⟩]
      threads := [{ id := ⟨1⟩, registers := [.record ⟨0⟩, .unit], code := [⟨.waitOr, [0], [1]⟩] }]
      spawned := 1 } }

theorem disused_collected : Prudent disused [.variable ⟨0⟩, .variable ⟨1⟩, .record ⟨0⟩,
      .atom ⟨⟨⟨0⟩, 0⟩, "lost"⟩] ∧
    ∃ m' m'', disused.collect = .ok m' ∧ m'.Tidy ∧ stats disused m' = ⟨(1, 0), (1, 1), (3, 1)⟩ ∧
      m'.collect = .ok m'' ∧ stats m' m'' = ⟨(0, 0), (1, 1), (1, 1)⟩ := by
  have hfree : ∀ {m : Machine} {ns : List Node},
      (∀ n ∈ ns, ∀ cell ∈ m.heap.cells.toList, n ∉ cellControls cell) →
      ∀ c, .variable c ∈ ns → ¬ m.heap.IsControl c :=
    fun hns c hc => not_isControl_of_forall (hns _ hc)
  have h₂ := ((Prudent.new ⟨0⟩ {}).step .newVariable nofun nofun rfl).step
    .newVariable nofun nofun rfl
  have h₃ := h₂.step (.buildTuple .unit [.variable ⟨0⟩, .variable ⟨1⟩]) (by decide)
    (hfree (by decide)) rfl
  have h₄ := h₃.step (.spawn [⟨.waitOr, [0], [1]⟩] [.record ⟨0⟩, .unit]) (by decide)
    (hfree (by decide)) rfl
  have h₅ := (h₄.step .run nofun nofun rfl).step (.newAtom "lost") nofun nofun rfl
  have h₆ : Prudent disused [.variable ⟨0⟩, .variable ⟨1⟩, .record ⟨0⟩,
      .atom ⟨⟨⟨0⟩, 0⟩, "lost"⟩] :=
    h₅.step (.bind ⟨0⟩ .unit) (by decide) (hfree (by decide)) rfl
  obtain ⟨m', hc, htidy, -, -, -, m'', hc', -⟩ := h₆.collect_leaves_nothing_over
  refine ⟨h₆, m', m'', hc, htidy, ?_, hc', ?_⟩
  · cases hc
    rfl
  · cases hc
    cases hc'
    rfl

end Machine

end Dataflow
