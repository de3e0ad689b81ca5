import Dataflow.Proofs.Attempts
import Dataflow.Proofs.Chains

/-! # Calls that are made again

  A call that suspends is made again later, and should then come to the same as if it were made for
  the first time. So two machines are compared, one on which the call was attempted and one on which
  it was not. A control that the attempt has left behind is a *stray* variable of the first: nobody
  waits for it, it leads to itself or to unit, and it is found nowhere but in the lists of free
  variables. A bind of any other variable gives it the value unit at most, and does all else in the
  same way on both machines.

  Main statement: a call that does not proceed commits nothing, and after binds of variables that
  the program has, the call made again has the outcome of the call made for the first time.
-/

open Relation (TransGen)

namespace Dataflow

/-! ### Stray variables -/

namespace Heap

variable {h h' : Heap} {c : VarRef}

/-- The second heap is the first with a variable `c` of no consequence. -/
structure Strays (h h' : Heap) (c : VarRef) : Prop extends h.Extends h' where
  records : h'.records = h.records
  /-- The first heap does not have the variable. -/
  absent : ∀ cell, h.cell c ≠ .ok cell
  /-- Nobody waits for it, and it has no value but unit. -/
  idle : h'.cell c = .ok (.unbound []) ∨ h'.cell c = .ok (.bound .unit)
  /-- No other control listens in the second heap alone. -/
  heard : ∀ {k u : VarRef}, h'.Listens (.control k) u → k = c ∨ h.Listens (.control k) u

theorem Gains.strays (hg : h.Gains h' c) : h.Strays h' c where
  toExtends := hg.extends
  records := hg.records
  absent cell hc := by
    have hlt := lt_of_cell hc
    rw [hg.fresh] at hlt
    exact Nat.lt_irrefl _ hlt
  idle := .inl hg.cell
  heard := by
    -- who is heard at a cell was heard there before, or is the new control
    rintro k u ⟨ls, hu, hl⟩
    rcases hg.cell_before hu with rfl | ⟨cell, hcell⟩
    · rw [hg.cell] at hu
      cases hu
      cases hl
    · cases cell with
      | bound x =>
        rw [hg.bound hcell] at hu
        cases hu
      | unbound ks =>
        rcases hg.unbound hcell with hu' | hu'
        · rw [hu'] at hu
          cases hu
          exact .inr ⟨_, hcell, hl⟩
        · rw [hu'] at hu
          cases hu
          rcases List.mem_append.mp hl with hl | hl
          · exact .inr ⟨ks, hcell, hl⟩
          · cases List.mem_singleton.mp hl
            exact .inl rfl

theorem Strays.ne (hst : h.Strays h' c) {v : VarRef} {cell : Cell} (hv : h.cell v = .ok cell) :
    v ≠ c := by
  rintro rfl
  exact hst.absent _ hv

theorem Strays.deref (hst : h.Strays h' c) {n d : Node} (hd : h.deref n = .ok d) :
    h'.deref n = .ok d :=
  hst.keeps hst.stays hd

theorem Strays.listens (hst : h.Strays h' c) {l : Listener} {u : VarRef} (hl : h.Listens l u) :
    h'.Listens l u := by
  obtain ⟨ls, hu, hl⟩ := hl
  rcases hst.unbound hu with ⟨ms, hu'⟩ | ⟨x, hu'⟩
  · exact ⟨ls ++ ms, hu', List.mem_append_left _ hl⟩
  · obtain ⟨ls', hs⟩ := hst.stays hu
    rw [hs] at hu'
    cases hu'

/-- Nobody listens to the variable. -/
theorem Strays.unheard (hst : h.Strays h' c) {l : Listener} : ¬ h'.Listens l c := by
  rintro ⟨ls, hc, hl⟩
  rcases hst.idle with hi | hi
  · rw [hi] at hc
    cases hc
    cases hl
  · rw [hi] at hc
    cases hc

/-- The variable leads to no other one. -/
theorem Strays.alone (hst : h.Strays h' c) {w : VarRef}
    (hd : h'.deref (.variable c) = .ok (.variable w)) : w = c := by
  rcases hst.idle with hi | hi
  · rw [deref_unbound hi] at hd
    cases hd
    rfl
  · rw [deref_bound hi, deref_of_value rfl] at hd
    cases hd

/-- The variable stays a stray one if both heaps go on in the same way: each other variable keeps
    its state, or is bound to one node on both sides, and the stray one is bound to unit at most. -/
theorem Strays.of_cells {k k' : Heap} (hst : h.Strays h' c) (hrec : k.records = h.records)
    (hrec' : k'.records = h'.records)
    (hcells : ∀ w, w ≠ c → k.cell w = h.cell w ∧ k'.cell w = h'.cell w ∨
      ∃ y, k.cell w = .ok (.bound y) ∧ k'.cell w = .ok (.bound y))
    (habsent : ∀ cell, k.cell c ≠ .ok cell)
    (hidle : k'.cell c = h'.cell c ∨ k'.cell c = .ok (.bound .unit)) : k.Strays k' c := by
  have hrecords : k'.records = k.records := by rw [hrec', hst.records, hrec]
  have hne : ∀ {w : VarRef} {cell : Cell}, k.cell w = .ok cell → w ≠ c := by
    rintro w cell hw rfl
    exact habsent _ hw
  -- a cell that is free now was free before, and was not written on the other side either
  have hfree : ∀ {w : VarRef} {ls : List Listener}, k.cell w = .ok (.unbound ls) →
      h.cell w = .ok (.unbound ls) ∧ k'.cell w = h'.cell w := by
    intro w ls hw
    rcases hcells w (hne hw) with ⟨hk, hk'⟩ | ⟨y, hy, -⟩
    · exact ⟨hk ▸ hw, hk'⟩
    · rw [hy] at hw
      cases hw
  refine
    { records := hrecords
      absent := habsent
      record := fun {ref r} hr => by rw [record_congr hrecords]; exact hr
      bound := fun {w x} hw => ?_
      unbound := fun {w ls} hw => ?_
      stays := fun {w ls} hw => ?_
      idle := ?_
      heard := ?_ }
  · rcases hcells w (hne hw) with ⟨hk, hk'⟩ | ⟨y, hy, hy'⟩
    · rw [hk']
      exact hst.bound (hk ▸ hw)
    · rw [hy', ← hy, hw]
  · obtain ⟨hw, hk'⟩ := hfree hw
    rw [hk']
    exact hst.unbound hw
  · obtain ⟨hw, hk'⟩ := hfree hw
    rw [hk']
    exact hst.stays hw
  · rcases hidle with hi | hi
    · rw [hi]
      exact hst.idle
    · exact .inr hi
  · rintro v u ⟨ls, hu, hl⟩
    -- who is heard at a cell: at the stray one nobody was, and it is written at most with unit
    by_cases huc : u = c
    · subst huc
      rcases hidle with hi | hi
      · exact absurd ⟨ls, hi ▸ hu, hl⟩ hst.unheard
      · rw [hi] at hu
        cases hu
    · rcases hcells u huc with ⟨hk, hk'⟩ | ⟨y, -, hy'⟩
      · refine (hst.heard ⟨ls, hk' ▸ hu, hl⟩).imp_right ?_
        rintro ⟨ks, hu, hl⟩
        exact ⟨ks, hk ▸ hu, hl⟩
      · rw [hy'] at hu
        cases hu

/-- The same value is written on both sides. -/
theorem Strays.setCell (hst : h.Strays h' c) {v : VarRef} {ls : List Listener}
    (hv : h.cell v = .ok (.unbound ls)) (x : Node) :
    (h.setCell v (.bound x)).Strays (h'.setCell v (.bound x)) c := by
  obtain ⟨ls', hv'⟩ := hst.stays hv
  have hcv : c ≠ v := (hst.ne hv).symm
  refine hst.of_cells rfl rfl (fun w _ => ?_) (fun cell hc => ?_) (.inl (cell_setCell_ne _ hcv))
  · by_cases hwv : w = v
    · subst hwv
      exact .inr ⟨x, cell_setCell_self _ (lt_of_cell hv), cell_setCell_self _ (lt_of_cell hv')⟩
    · exact .inl ⟨cell_setCell_ne _ hwv, cell_setCell_ne _ hwv⟩
  · rw [cell_setCell_ne _ hcv] at hc
    exact hst.absent cell hc

end Heap

namespace Machine

variable {m m' m₁ m₁' : Machine} {b : Builtin} {operands : List Node} {o : Outcome}
  {c v target w : VarRef} {x d : Node}

/-! ### The same bind on both sides -/

/-- Two machines of which the second has a stray variable. -/
structure Strays (m m₁ : Machine) (c : VarRef) : Prop where
  left : m.Steady
  right : m₁.Steady
  heap : m.heap.Strays m₁.heap c
  output : m.output = m₁.output

/-- What is summoned on one side is summoned on the other. -/
theorem Strays.summoned (hs : m.Strays m₁ c) {ls : List Listener}
    (hcell : m.heap.cell target = .ok (.unbound ls)) (hw : m.Summoned target x w) :
    m₁.Summoned target x w := by
  have hafter := hs.heap.setCell hcell x
  refine TransGen.mono (fun u w hsum => ?_) _ _ hw
  obtain ⟨k, hl, hd⟩ := hsum
  exact ⟨k, hs.heap.listens hl, hafter.deref hd⟩

/-- The stray variable summons nothing, so all else that is summoned is summoned without it. -/
theorem Strays.summoned_before (hs : m.Strays m₁ c) {ls : List Listener}
    (hcell : m.heap.cell target = .ok (.unbound ls)) (hx : m.heap.deref x = .ok d)
    (hne : d ≠ .variable target) (hw : m₁.Summoned target x w) (hwc : w ≠ c) :
    m.Summoned target x w := by
  have hafter := hs.heap.setCell hcell x
  have hgrows : m.heap.Grows (m.withBound target x).heap :=
    Heap.grows_setCell hcell (.inr ⟨x, rfl⟩)
  have hstep : ∀ {u w : VarRef}, Summons m₁.heap (m₁.withBound target x).heap u w → w ≠ c →
      Summons m.heap (m.withBound target x).heap u w := by
    rintro u w ⟨k, hl, hd⟩ hwc
    rcases hs.heap.heard hl with rfl | hl
    · exact absurd (hafter.alone hd) hwc
    · -- a control of the first heap leads somewhere there, and so to the same variable
      obtain ⟨cell, hk⟩ := hs.left.control ⟨u, hl⟩
      obtain ⟨e, he⟩ :=
        (hs.left.withBound hcell hx hne).deref (hgrows.inRange (Heap.inRange_of_cell hk))
      rw [withBound, hafter.deref he] at hd
      cases hd
      exact ⟨k, hl, he⟩
  induction hw with
  | single hsum => exact .single (hstep hsum hwc)
  | @tail u w _ hsum ih =>
    have huc : u ≠ c := by
      rintro rfl
      obtain ⟨k, hl, -⟩ := hsum
      exact hs.heap.unheard hl
    exact (ih huc).tail (hstep hsum hwc)

/-- The same bind of a free variable is done on both sides. -/
theorem Strays.of_bind (hs : m.Strays m₁ c)
    (hv : m.heap.deref (.variable v) = .ok (.variable target)) (hx : m.heap.deref x = .ok d)
    (hb : m.bind v x = .ok (.ok m')) (hb₁ : m₁.bind v x = .ok (.ok m₁')) : m'.Strays m₁' c := by
  have hv₁ := hs.heap.deref hv
  have hx₁ := hs.heap.deref hx
  -- a variable that is bound to itself stays as it is
  by_cases hne : d = .variable target
  · subst hne
    rw [bind, bindWithin_self hv hx] at hb
    rw [bind, bindWithin_self hv₁ hx₁] at hb₁
    cases hb
    cases hb₁
    exact hs
  obtain ⟨ls, hcell⟩ := Heap.cell_of_deref hv
  have hct : c ≠ target := (hs.heap.ne hcell).symm
  obtain ⟨ids, hc, -⟩ := cascade_of_bind hs.left.nodup hb
  obtain ⟨ids₁, hc₁, -⟩ := cascade_of_bind hs.right.nodup hb₁
  -- otherwise both sides write the same cells: the target, and those that it summons
  obtain ⟨htarget, hcells⟩ := cell_of_summoned hs.left.nodup hv (by rw [hx]; simpa using hne) hb
  obtain ⟨htarget₁, hcells₁⟩ :=
    cell_of_summoned hs.right.nodup hv₁ (by rw [hx₁]; simpa using hne) hb₁
  refine ⟨hs.left.cascade hc, hs.right.cascade hc₁, ?_, ?_⟩
  · refine hs.heap.of_cells (by rw [hc.rest]) (by rw [hc₁.rest]) (fun w hwc => ?_) ?_ ?_
    · by_cases hwt : w = target
      · exact .inr ⟨x, hwt ▸ htarget, hwt ▸ htarget₁⟩
      by_cases hsum : m.Summoned target x w
      · exact .inr ⟨.unit, (hcells w hwt).1 hsum, (hcells₁ w hwt).1 (hs.summoned hcell hsum)⟩
      · exact .inl ⟨(hcells w hwt).2 hsum, (hcells₁ w hwt).2 fun hsum₁ =>
          hsum (hs.summoned_before hcell hx hne hsum₁ hwc)⟩
    · intro cell hcc
      obtain ⟨cell₀, hcc₀⟩ := hc.cell_before hcc
      exact hs.heap.absent cell₀ hcc₀
    -- the stray control itself may be summoned
    · by_cases hsum : m₁.Summoned target x c
      · exact .inr ((hcells₁ c hct).1 hsum)
      · exact .inl ((hcells₁ c hct).2 hsum)
  · rw [hc.rest, hc₁.rest]
    exact hs.output

/-! ### Bind after bind -/

/-- Binds variables one after the other. A bind that is refused is passed over. -/
def bindEach (m : Machine) : List (VarRef × Node) → Except Fault Machine
  | [] => .ok m
  | (v, x) :: rest => do
    match ← m.bind v x with
    | .ok m => m.bindEach rest
    | .error _ => m.bindEach rest

/-- The variables and their values lie in the heap. -/
def Own (m : Machine) (binds : List (VarRef × Node)) : Prop :=
  ∀ e ∈ binds, m.heap.InRange (.variable e.1) ∧ m.heap.InRange e.2

theorem Own.grows {binds : List (VarRef × Node)} (ho : m.Own binds) (hg : m.heap.Grows m'.heap) :
    m'.Own binds :=
  fun e he => ⟨hg.inRange (ho e he).1, hg.inRange (ho e he).2⟩

/-- A bind of a variable of the heap to a node of the heap succeeds, unless it has a value. -/
theorem Steady.bind_cases (hs : m.Steady) (hv : m.heap.InRange (.variable v))
    (hx : m.heap.InRange x) :
    (∃ d, m.heap.deref (.variable v) = .ok d ∧ d.asVariable? = none) ∨
    ∃ target d m' ids, m.heap.deref (.variable v) = .ok (.variable target) ∧
      m.heap.deref x = .ok d ∧ m.bind v x = .ok (.ok m') ∧ Cascade m m' ids := by
  obtain ⟨d, hd⟩ := hs.deref hv
  obtain ⟨e, he⟩ := hs.deref hx
  rcases d.value_or_variable with hval | ⟨target, rfl⟩
  · exact .inl ⟨d, hd, hval⟩
  · obtain ⟨m', hb⟩ := bind_completes hs hd he
    obtain ⟨ids, hc, -⟩ := cascade_of_bind hs.nodup hb
    exact .inr ⟨target, e, m', ids, hd, he, hb, hc⟩

/-- Binds of variables of the heap come to an end, and leave the records as they are. -/
theorem Steady.bindEach (hs : m.Steady) {binds : List (VarRef × Node)} (ho : m.Own binds) :
    ∃ m', m.bindEach binds = .ok m' ∧ m'.Steady ∧ m'.heap.records = m.heap.records ∧
      m.heap.Grows m'.heap := by
  induction binds generalizing m with
  | nil => exact ⟨m, rfl, hs, rfl, .refl _⟩
  | cons e rest ih =>
    obtain ⟨v, x⟩ := e
    obtain ⟨hv, hx⟩ := ho _ (List.mem_cons_self ..)
    have hrest : m.Own rest := fun e he => ho e (List.mem_cons_of_mem _ he)
    rcases hs.bind_cases hv hx with ⟨d, hd, hval⟩ | ⟨target, d, next, ids, -, -, hb, hc⟩
    · obtain ⟨m', hm', hs', hr, hg⟩ := ih hs hrest
      refine ⟨m', ?_, hs', hr, hg⟩
      rw [Machine.bindEach, bind_refused hd hval]
      exact hm'
    · obtain ⟨m', hm', hs', hr, hg⟩ := ih (hs.cascade hc) (hrest.grows hc.grows)
      refine ⟨m', ?_, hs', ?_, hc.grows.trans hg⟩
      · rw [Machine.bindEach, hb]
        exact hm'
      · rw [hr, hc.rest]

/-- The same binds are done on both sides. -/
theorem Strays.bindEach (hs : m.Strays m₁ c) {binds : List (VarRef × Node)} (ho : m.Own binds)
    (hm' : m.bindEach binds = .ok m') (hm₁' : m₁.bindEach binds = .ok m₁') : m'.Strays m₁' c := by
  induction binds generalizing m m₁ with
  | nil =>
    cases hm'
    cases hm₁'
    exact hs
  | cons e rest ih =>
    obtain ⟨v, x⟩ := e
    obtain ⟨hv, hx⟩ := ho _ (List.mem_cons_self ..)
    have hrest : m.Own rest := fun e he => ho e (List.mem_cons_of_mem _ he)
    rcases hs.left.bind_cases hv hx with ⟨d, hd, hval⟩ | ⟨target, d, next, ids, hd, he, hb, hc⟩
    · rw [Machine.bindEach, bind_refused hd hval] at hm'
      rw [Machine.bindEach, bind_refused (hs.heap.deref hd) hval] at hm₁'
      exact ih hs hrest hm' hm₁'
    · obtain ⟨next₁, hb₁⟩ := bind_completes hs.right (hs.heap.deref hd) (hs.heap.deref he)
      rw [Machine.bindEach, hb] at hm'
      rw [Machine.bindEach, hb₁] at hm₁'
      exact ih (hs.of_bind hd he hb hb₁) (hrest.grows hc.grows) hm' hm₁'

/-! ### Outcomes that look the same -/

/-- Two calls have come to the same, as far as it can be printed. -/
inductive SameOutcome : Outcome × Machine → Outcome × Machine → Prop where
  | proceed {ns ns' : List Node} {m m' : Machine} : m.output = m'.output →
      List.Forall₂ (fun n n' => ∀ depth, m.print n depth = m'.print n' depth) ns ns' →
      SameOutcome (.proceed ns, m) (.proceed ns', m')
  | raise {e e' : Node} {m m' : Machine} : m.output = m'.output →
      (∀ depth, m.print e depth = m'.print e' depth) → SameOutcome (.raise e, m) (.raise e', m')
  | suspend {v v' : VarRef} {m m' : Machine} : m.output = m'.output →
      SameOutcome (.suspend v, m) (.suspend v', m')

theorem SameOutcome.refl (r : Outcome × Machine) : SameOutcome r r := by
  obtain ⟨o, m⟩ := r
  cases o with
  | proceed ns => exact .proceed rfl (List.forall₂_same.mpr fun n _ depth => rfl)
  | raise e => exact .raise rfl fun depth => rfl
  | suspend v => exact .suspend rfl

theorem agree_sameOutcome_refl (x : Except Fault (Outcome × Machine)) : Agree SameOutcome x x := by
  cases x with
  | ok r => exact .ok (.refl r)
  | error f => exact .error f

/-- A feature is printed as its text, to every depth. -/
theorem print_toNode (m : Machine) (f : Feature) (depth : Nat) :
    m.print f.toNode depth = .ok f.text := by
  have hrecord : f.toNode.asRecord? = none := by
    cases f with
    | int i => rfl
    | literal l => cases l <;> rfl
  have htext : f.toNode.leafText = f.text := by
    cases f with
    | int i => rfl
    | literal l => cases l <;> rfl
  rw [print, Heap.print_value (Heap.deref_of_value f.asVariable?_toNode) hrecord, htext]

/-- A feature is printed without a look at the heap. -/
theorem print_feature (m m' : Machine) (f : Feature) (depth : Nat) :
    m.print f.toNode depth = m'.print f.toNode depth := by
  rw [print_toNode, print_toNode]

/-! ### The call that is made again -/

theorem firstDetermined_congr {entries : List (Feature × Node)}
    (he : ∀ e ∈ entries, m'.heap.deref e.2 = m.heap.deref e.2) :
    m'.firstDetermined entries = m.firstDetermined entries := by
  induction entries with
  | nil => rfl
  | cons e rest ih =>
    obtain ⟨f, n⟩ := e
    have hn : m'.deref n = m.deref n := he _ (List.mem_cons_self ..)
    rw [firstDetermined, firstDetermined, hn, ih fun e' he' => he e' (List.mem_cons_of_mem _ he')]

/-- One of many free fields can be waited for on both sides. -/
theorem Strays.waitForAny (hs : m.Strays m₁ c) {vs : List VarRef} (hne : vs ≠ [])
    (hvs : ∀ v ∈ vs, ∃ ls, m.heap.cell v = .ok (.unbound ls)) :
    Agree SameOutcome (do let (v, m) ← m.waitForAny vs; return (.suspend v, m))
      (do let (v, m) ← m₁.waitForAny vs; return (.suspend v, m)) := by
  have houtput : ∀ {m last : Machine} {v : VarRef}, (last = m ∧ (v ∈ vs ∨ m.heap.IsControl v) ∨
      ∃ heap, last = { m with heap } ∧ m.heap.Gains heap v) → last.output = m.output := by
    rintro m last v (⟨rfl, -⟩ | ⟨heap, rfl, -⟩)
    · rfl
    · rfl
  obtain ⟨v, last, hw, hlast⟩ := waitForAny_completes hs.left hne hvs
  obtain ⟨v₁, last₁, hw₁, hlast₁⟩ := waitForAny_completes hs.right hne fun v hv =>
    (hvs v hv).elim fun ls hls => hs.heap.stays hls
  rw [hw, hw₁]
  exact .ok (.suspend (by rw [houtput hlast, houtput hlast₁, hs.output]))

/-- A call that waits for one of the fields of a record comes to the same on both sides. -/
theorem Strays.waitOr (hs : m.Strays m₁ c) {n : Node} {ref : RecordRef} {r : Record}
    (hn : m.heap.deref n = .ok (.record ref)) (hr : m.heap.record ref = .ok r)
    (hcanon : r.Canonical) (hfields : ∀ y ∈ r.fields, ∃ d, m.heap.deref y = .ok d) :
    Agree SameOutcome (m.waitOr n) (m₁.waitOr n) := by
  have hfirst : m₁.firstDetermined (r.features.zip r.fields) =
      m.firstDetermined (r.features.zip r.fields) := by
    refine firstDetermined_congr fun e he => ?_
    obtain ⟨d, hd⟩ := hfields e.2 (List.of_mem_zip he).2
    rw [hd, hs.heap.deref hd]
  rw [Machine.waitOr, Machine.waitOr, withReceiver_receiver (.record ref) hn,
    withReceiver_receiver (.record ref) (hs.heap.deref hn)]
  simp only [hr, hs.heap.record hr, ok_bind, hfirst]
  cases hfound : m.firstDetermined (r.features.zip r.fields) with
  | error f => exact .error f
  | ok found =>
    cases found with
    | inl f => exact .ok (.proceed hs.output (.cons (print_feature m m₁ f) .nil))
    | inr vs =>
      have hall := firstDetermined_eq_inr.mp hfound
      refine hs.waitForAny ?_ fun v hv => ?_
      · rintro rfl
        have hlen := hall.length_eq
        rw [List.length_zip, hcanon.balanced, Nat.min_self] at hlen
        exact hcanon.nonempty (List.eq_nil_of_length_eq_zero hlen)
      · obtain ⟨e, -, he⟩ := exists_of_forall₂_right hall hv
        exact Heap.cell_of_deref he

/-- A call that has suspended may be made again after any binds, with the outcome that it has if it
    is made for the first time then. -/
theorem Reachable.retry (hm : Reachable m) (hc : m.call b operands = .ok (.suspend c, m₁))
    {binds : List (VarRef × Node)} (ho : m.Own binds) :
    ∃ m' m₁', m.bindEach binds = .ok m' ∧ m₁.bindEach binds = .ok m₁' ∧
      Agree SameOutcome (m'.call b operands) (m₁'.call b operands) := by
  obtain ⟨m', hm', hs', -, hgrows⟩ := hm.waits.steady.bindEach ho
  cases hm.attempt hc nofun with
  | suspend _ => exact ⟨m', m', hm', hm', agree_sameOutcome_refl _⟩
  | @control _ heap hb hg =>
    subst hb
    have hs : m.Strays { m with heap } c :=
      ⟨hm.waits.steady, (hm.step (.call _ _ hc)).waits.steady, hg.strays, rfl⟩
    obtain ⟨m₁', hm₁', -⟩ := hs.right.bindEach (ho.grows hg.grows)
    refine ⟨m', m₁', hm', hm₁', ?_⟩
    obtain ⟨n, rfl⟩ := List.length_eq_one_iff.mp (length_of_call hc)
    rcases waitOr_suspended hc with ⟨-, he⟩ | ⟨ref, r, vs, hd, href, hfound, -⟩
    · have hsize := hg.size
      rw [congrArg (fun m : Machine => m.heap.cells.size) he] at hsize
      exact absurd hsize (Nat.ne_of_lt (Nat.lt_succ_self _))
    · refine (hs.bindEach ho hm' hm₁').waitOr (hgrows.deref_value hd rfl) (hgrows.record href)
        (hm.canonical href) fun y hy => ?_
      -- the fields have led to variables, and these are still there
      have hfields := fields_of_firstDetermined (hm.canonical href).balanced hfound
      obtain ⟨v, -, hv⟩ := exists_of_forall₂_left hfields hy
      obtain ⟨ls, hcell⟩ := Heap.cell_of_deref hv
      rw [hgrows.deref hv]
      exact hs'.deref (hgrows.inRange (Heap.inRange_of_cell hcell))

/-- A call of a reachable machine that does not proceed commits nothing: what a program can see is
    unchanged, the slots for its results hold what they held, and the thread that makes the call
    keeps its registers and its place. A call that raises adds atoms and records. A call that
    suspends changes nothing, but that waiting for one of many fields may add a control; and whatever
    of its own variables the program binds after it, to its own nodes, the call made again comes to
    the same as the call made then for the first time. -/
theorem Reachable.uncommitted_call (hm : Reachable m) (hc : m.call b operands = .ok (o, m₁))
    (ho : ∀ results, o ≠ .proceed results) :
    m.Uncommitted m₁ ∧
    (∀ slots, o.fill slots = slots) ∧
    (∀ t i, t.code[t.pc]? = some i → i.builtin = b → i.inputs.mapM t.register = .ok operands →
      ∃ last t', turn 1 m t = .ok (last, t') ∧ t'.registers = t.registers ∧ t'.pc = t.pc) ∧
    (∀ e, o = .raise e → m.Prolongs m₁) ∧
    ∀ c, o = .suspend c →
      (m₁ = m ∨ b = .waitOr ∧ ∃ heap, m₁ = { m with heap } ∧ m.heap.Gains heap c) ∧
      ∀ binds, m.Own binds →
        ∃ m' m₁', m.bindEach binds = .ok m' ∧ m₁.bindEach binds = .ok m₁' ∧
          Agree SameOutcome (m'.call b operands) (m₁'.call b operands) := by
  have ha := hm.attempt hc ho
  refine ⟨ha.uncommitted, Outcome.fill_eq_self ho,
    fun t i hi hb hops => ha.turn hc hi hb hops, ?_, ?_⟩
  · rintro e rfl
    cases ha with
    | raise hp => exact hp
  · rintro c rfl
    refine ⟨?_, fun binds hown => hm.retry hc hown⟩
    cases ha with
    | suspend _ => exact .inl rfl
    | control hb hg => exact .inr ⟨hb, _, rfl, hg⟩

/-- A machine with a tuple of two free variables. -/
def undecided : Machine :=
  { id := ⟨0⟩
    heap := {
      records := #[⟨.unit, .tuple, [.variable ⟨0⟩, .variable ⟨1⟩]⟩]
      cells := #[.unbound [], .unbound []]
      allocated := 3 } }

theorem reachable_undecided : Reachable undecided := by
  have h₂ := ((Reachable.new ⟨0⟩ {}).step (.newVariable _)).step (.newVariable _)
  exact h₂.step (.buildTuple .unit [.variable ⟨0⟩, .variable ⟨1⟩] rfl)

/-- The call leaves a control behind. After a bind of the second field, the call that is made again
    proceeds, and prints what the call prints that is made for the first time. -/
theorem undecided_retries : ∃ m₁ m' m₁' last n,
    undecided.call .waitOr [.record ⟨0⟩] = .ok (.suspend ⟨2⟩, m₁) ∧
    m₁.heap.cell ⟨0⟩ = .ok (.unbound [.control ⟨2⟩]) ∧ undecided.Uncommitted m₁ ∧
    undecided.bindEach [(⟨1⟩, .int 5)] = .ok m' ∧ m₁.bindEach [(⟨1⟩, .int 5)] = .ok m₁' ∧
    m'.call .waitOr [.record ⟨0⟩] = .ok (.proceed [.int 2], m') ∧
    m₁'.call .waitOr [.record ⟨0⟩] = .ok (.proceed [n], last) ∧ last.print n 10 = .ok "2" := by
  have hc : undecided.call .waitOr [.record ⟨0⟩] = .ok (.suspend ⟨2⟩, _) := rfl
  have hown : undecided.Own [(⟨1⟩, .int 5)] := by
    intro e he
    cases List.mem_singleton.mp he
    exact ⟨rfl, trivial⟩
  obtain ⟨hcommits, -, -, -, hsuspend⟩ := reachable_undecided.uncommitted_call hc nofun
  obtain ⟨m', m₁', hm', hm₁', hsame⟩ := (hsuspend _ rfl).2 _ hown
  have hfirst : m'.call .waitOr [.record ⟨0⟩] = .ok (.proceed [.int 2], m') := by
    cases hm'
    rfl
  rw [hfirst] at hsame
  generalize hretry : m₁'.call .waitOr [.record ⟨0⟩] = retried at hsame
  cases hsame with
  | ok hsame =>
    cases hsame with
    | @proceed _ ns _ last _ hprint =>
      obtain ⟨n, rest, hn, hrest, rfl⟩ := List.forall₂_cons_left_iff.mp hprint
      cases hrest
      exact ⟨_, m', m₁', last, n, hc, rfl, hcommits, hm', hm₁', hfirst, hretry, (hn 10).symm⟩

end Machine

end Dataflow
