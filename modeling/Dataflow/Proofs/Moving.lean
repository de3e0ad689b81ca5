import Dataflow.Proofs.Collecting
import Dataflow.Proofs.Lockstep
import Dataflow.Proofs.Parts

/-! # Collections in step

  If one of two machines in step collects its garbage, the two stay in step. Everything that is
  alive on the side that collects is known on the other side, so nothing dangles and the collection
  succeeds. The new world relates what the old one did, on that side at its new place.
-/

namespace Dataflow

variable {w : World} {a b : View} {m m' m'' : Machine} {φ : Node → Node}

/-! ### What is alive is known -/

/-- A node of the second machine stands for something of the first, or is a control. -/
def Lockstep.Known (w : World) (m m' : Machine) (n' : Node) : Prop :=
  (∃ n, Alike w m.view m'.view n n') ∨ ∃ c c', w.control c c' ∧ n' = .variable c'

/-- Related variables can be known. -/
theorem Likeness.alike_var (hl : Likeness w a b) {v v' : VarRef} (hv : w.var v v') :
    Alike w a b (.variable v) (.variable v') := by
  obtain ⟨ls, ls', hc, hc', -⟩ := hl.var hv
  exact ⟨_, _, Heap.deref_unbound hc, Heap.deref_unbound hc', .variable hv⟩

theorem RecordAlike.edges {r r' : Record} (hr : RecordAlike w a b r r') :
    List.Forall₂ (Alike w a b) r.edges r'.edges := by
  have hlabel := Alike.of_value hr.label (Literal.asVariable?_toNode r.label)
  unfold Record.edges
  rcases hr.arity with ⟨ha, ha'⟩ | ⟨names, names', ha, ha', hn⟩
  · rw [ha, ha']
    exact .cons hlabel hr.fields
  · rw [ha, ha']
    refine .cons hlabel (List.rel_append ?_ hr.fields)
    refine List.forall₂_map_left_iff.mpr (List.forall₂_map_right_iff.mpr (hn.imp fun f f' hf => ?_))
    exact .of_value hf (Feature.asVariable?_toNode f)

/-- A control in a list is related to one of the other list, or has been served. -/
theorem ListenersAlike.control_right {ls ls' : List Listener} (hls : ListenersAlike w a b ls ls')
    {c' : VarRef} (hc' : .control c' ∈ ls') :
    (∃ c, w.control c c') ∨ b.heap.deref (.variable c') = .ok .unit := by
  induction hls with
  | nil => cases hc'
  | thread id _ ih =>
    rcases List.mem_cons.mp hc' with h | h
    · cases h
    · exact ih h
  | control hc _ ih =>
    rcases List.mem_cons.mp hc' with h | h
    · cases h; exact .inl ⟨_, hc⟩
    · exact ih h
  | servedLeft _ _ ih => exact ih hc'
  | servedRight hc _ ih =>
    rcases List.mem_cons.mp hc' with h | h
    · cases h; exact .inr hc
    · exact ih h

theorem Lockstep.known_cell (hs : Lockstep w m m') {v v' : VarRef} (hv : w.cell v v') :
    Lockstep.Known w m m' (.variable v') := by
  rcases hv with hv | hc
  · exact .inl ⟨_, hs.like.alike_var hv⟩
  · exact .inr ⟨_, _, hc, rfl⟩

/-- What a thread of the second machine waits for is known, and so is what it has raised. -/
theorem Lockstep.known_state (hs : Lockstep w m m') {s s' : ThreadState}
    (hss : StateAlike w.cell w m.view m'.view s s') :
    (∀ v', s' = .waiting v' → Lockstep.Known w m m' (.variable v')) ∧
      ∀ e', s' = .failed e' → Lockstep.Known w m m' e' := by
  cases hss with
  | runnable => exact ⟨nofun, nofun⟩
  | terminated => exact ⟨nofun, nofun⟩
  | waiting hv =>
    refine ⟨fun v' h => ?_, nofun⟩
    cases h
    exact hs.known_cell hv
  | failed he =>
    refine ⟨nofun, fun e' h => ?_⟩
    cases h
    exact .inl ⟨_, he⟩

/-- What the second machine keeps alive is known from the start. -/
theorem Lockstep.known_liveNodes (hs : Lockstep w m m') {n' : Node} (hn : n' ∈ m'.liveNodes) :
    Lockstep.Known w m m' n' := by
  rcases List.mem_append.mp hn with hn | hn
  · obtain ⟨n, -, h⟩ := exists_of_forall₂_right hs.roots hn
    exact .inl ⟨n, h⟩
  · obtain ⟨t', ht', hn⟩ := List.mem_flatMap.mp hn
    obtain ⟨t, -, ht⟩ := exists_of_forall₂_right hs.threads ht'
    obtain ⟨hwaiting, hfailed⟩ := hs.known_state ht.state
    rcases Thread.mem_nodes.mp hn with hn | ⟨v', hstate, rfl⟩ | hstate
    · obtain ⟨n, -, h⟩ := exists_of_forall₂_right ht.registers hn
      exact .inl ⟨n, h⟩
    · exact hwaiting v' hstate
    · exact hfailed n' hstate

/-- Everything that is alive is known: along a field, a value or a control. -/
theorem Lockstep.known_of_live (hs : Lockstep w m m') {n' : Node} (hn : m'.Live n') :
    Lockstep.Known w m m' n' := by
  -- along the path that keeps the node alive: what a known node leads to is known
  induction hn with
  | start hn => exact hs.known_liveNodes hn
  | @edge ref' s' n' _ hr hn ih =>
    obtain ⟨n, d, d', -, hd', hm⟩ | ⟨c, c', -, hc⟩ := ih
    · rw [Heap.deref_of_value rfl] at hd'
      cases hd'
      cases hm with
      | record hrr =>
        obtain ⟨s, s'', -, hr', hss⟩ := hs.like.record hrr
        have hr : m'.view.heap.record ref' = .ok s' := hr
        rw [hr'] at hr
        cases hr
        obtain ⟨x, -, hx⟩ := exists_of_forall₂_right hss.edges hn
        exact .inl ⟨x, hx⟩
    -- a control is no record
    · cases hc
  | @value v' x _ hc ih =>
    obtain ⟨n, d, d', hd, hd', hm⟩ | ⟨c, c', hcc, he⟩ := ih
    · exact .inl ⟨n, d, d', hd, (Heap.deref_bound hc).symm.trans hd', hm⟩
    · cases he
      obtain ⟨ids, -, hc'⟩ := hs.like.control hcc
      rw [show m'.heap.cell v' = _ from hc'] at hc
      cases hc
  | @control v' c' ls' _ hc hl ih =>
    have hd : m'.view.heap.deref (.variable v') = .ok (.variable v') := Heap.deref_unbound hc
    obtain ⟨n, d, d', -, hd', hm⟩ | ⟨c, c'', hcc, he⟩ := ih
    · rw [hd] at hd'
      cases hd'
      cases hm with
      | «variable» hv =>
        obtain ⟨ls, ls'', -, hc', hls⟩ := hs.like.var hv
        rw [show m'.heap.cell v' = _ from hc'] at hc
        cases hc
        rcases hls.control_right hl with ⟨c, hcc⟩ | hunit
        -- a listener on the right has its partner on the left, or stands for one that has been
        -- served
        · exact .inr ⟨c, c', hcc, rfl⟩
        · exact .inl ⟨.unit, .unit, .unit, Heap.deref_of_value rfl, hunit, .unit⟩
    · -- no control listens to a control
      cases he
      obtain ⟨ids, -, hc'⟩ := hs.like.control hcc
      rw [show m'.heap.cell v' = _ from hc'] at hc
      cases hc
      simp at hl

/-- What is known does not dangle. -/
theorem Lockstep.inRange_of_known (hs : Lockstep w m m') {n' : Node}
    (hn : Lockstep.Known w m m' n') : m'.heap.InRange n' := by
  obtain ⟨n, d, d', -, hd', hm⟩ | ⟨c, c', hcc, rfl⟩ := hn
  · cases n' with
    | record ref' =>
      rw [Heap.deref_of_value rfl] at hd'
      cases hd'
      cases hm with
      | record hrr =>
        obtain ⟨s, s', -, hr', -⟩ := hs.like.record hrr
        exact Heap.inRange_of_record hr'
    | «variable» v' =>
      cases hc : m'.heap.cell v' with
      | ok c => exact Heap.inRange_of_cell hc
      | error f => cases (Heap.deref_dangling hc).symm.trans hd'
    | _ => trivial
  · obtain ⟨ids, -, hc'⟩ := hs.like.control hcc
    exact Heap.inRange_of_cell hc'

/-- The second machine can collect its garbage. -/
theorem Lockstep.collect_ok (hs : Lockstep w m m') :
    ∃ m'' φ, m'.collect = .ok m'' ∧ Machine.Relocation m' m'' φ := by
  obtain ⟨m'', hc⟩ := Machine.collect_ok hs.waitsRight.grounded
    fun hn => hs.inRange_of_known (hs.known_of_live hn)
  obtain ⟨φ, hr⟩ := Machine.relocation_of_collect hc
  exact ⟨m'', φ, hc, hr⟩

/-! ### The world after a collection -/

/-- The world in which the second part of each pair has been moved by `φ`. -/
def World.through (w : World) (m' : Machine) (φ : Node → Node) : World where
  record r r'' := ∃ r', w.record r r' ∧ m'.Live (.record r') ∧ φ (.record r') = .record r''
  var v v'' := ∃ v', w.var v v' ∧ m'.Live (.variable v') ∧ φ (.variable v') = .variable v''
  control c c'' := ∃ c', w.control c c' ∧ m'.Live (.variable c') ∧ φ (.variable c') = .variable c''

theorem World.cell_through {v v'' : VarRef} (hv : (w.through m' φ).cell v v'') :
    ∃ v', w.cell v v' ∧ m'.Live (.variable v') ∧ φ (.variable v') = .variable v'' := by
  rcases hv with ⟨v', hv, h⟩ | ⟨v', hv, h⟩
  · exact ⟨v', .inl hv, h⟩
  · exact ⟨v', .inr hv, h⟩

theorem World.Faithful.matches_through (hw : w.Faithful a m'.view)
    (hr : Machine.Relocation m' m'' φ) {d d' : Node} (hm : Matches w a m'.view d d')
    (hd' : m'.heap.deref d' = .ok d') (hn : m'.Live d') :
    Matches (w.through m' φ) a m''.view d (φ d') := by
  cases hm with
  | atom content => rw [(hr.atom hn).1]; exact .atom content
  | int i => rw [hr.inline hn rfl]; exact .int i
  | float x => rw [hr.inline hn rfl]; exact .float x
  | bool x => rw [hr.inline hn rfl]; exact .bool x
  | unit => rw [hr.inline hn rfl]; exact .unit
  | record hrr =>
    obtain ⟨s, s', -, hs', -⟩ := hw _ _ hrr
    obtain ⟨ref'', -, hφ, -⟩ := hr.record hn hs'
    rw [hφ]
    exact .record ⟨_, hrr, hn, hφ⟩
  | «variable» hv =>
    obtain ⟨ls', hc'⟩ := Heap.cell_of_deref hd'
    obtain ⟨v'', hφ, -⟩ := hr.var hn hc'
    rw [hφ]
    exact .variable ⟨_, hv, hn, hφ⟩

/-- A node that is alive is moved to one that stands for the same. -/
theorem World.Faithful.alike_through (hw : w.Faithful a m'.view)
    (hr : Machine.Relocation m' m'' φ) {n n' : Node} (hn : Alike w a m'.view n n')
    (hlive : m'.Live n') : Alike (w.through m' φ) a m''.view n (φ n') := by
  obtain ⟨d, d', hd, hd', hm⟩ := hn
  have hmoved := hw.matches_through hr hm (Heap.deref_deref hd') (hlive.deref hd')
  exact ⟨d, φ d', hd, hr.deref_image hlive hd', hmoved⟩

theorem World.Faithful.nodes_through (hw : w.Faithful a m'.view)
    (hr : Machine.Relocation m' m'' φ) {ns ns' : List Node}
    (hn : List.Forall₂ (Alike w a m'.view) ns ns') (hlive : ∀ n' ∈ ns', m'.Live n') :
    List.Forall₂ (Alike (w.through m' φ) a m''.view) ns (ns'.map φ) := by
  rw [List.forall₂_map_right_iff]
  exact forall₂_imp_right hn fun n' hn' n h => hw.alike_through hr h (hlive n' hn')

theorem World.Faithful.record_through (hw : w.Faithful a m'.view)
    (hr : Machine.Relocation m' m'' φ) {r r' r'' : Record} (hrr : RecordAlike w a m'.view r r')
    (him : r'.IsImage φ r'') (hlive : ∀ n' ∈ r'.edges, m'.Live n') :
    RecordAlike (w.through m' φ) a m''.view r r'' := by
  refine ⟨?_, ?_, ?_⟩
  · rw [him.label]
    exact hw.matches_through hr hrr.label (Heap.deref_of_value (Literal.asVariable?_toNode _))
      (hlive _ (Heap.label_mem_edges r'))
  · rcases hrr.arity with ⟨ha, ha'⟩ | ⟨names, names', ha, ha', hn⟩
    · rcases him.arity with ⟨-, ha''⟩ | ⟨xs, ys, hx, -⟩
      · exact .inl ⟨ha, ha''⟩
      · rw [ha'] at hx; cases hx
    · rcases him.arity with ⟨hx, -⟩ | ⟨xs, names'', hx, ha'', hmap⟩
      · rw [ha'] at hx; cases hx
      · rw [ha'] at hx
        cases hx
        refine .inr ⟨names, names'', ha, ha'', ?_⟩
        have hmoved : List.Forall₂ (fun f n => Matches (w.through m' φ) a m''.view f.toNode n)
            names (names'.map fun f => φ f.toNode) := by
          refine List.forall₂_map_right_iff.mpr (forall₂_imp_right hn fun f' hf' f hf => ?_)
          exact hw.matches_through hr hf (Heap.deref_of_value (Feature.asVariable?_toNode _))
            (hlive _ (Heap.feature_mem_edges ha' hf'))
        rw [← hmap] at hmoved
        exact (List.forall₂_map_right_iff.mp hmoved).imp fun _ _ h => h
  · rw [him.fields]
    exact hw.nodes_through hr hrr.fields fun n hn => hlive n (Heap.field_mem_edges hn)

/-- The records that are alive are moved to records that stand for the same. -/
theorem World.Faithful.through (hw : w.Faithful a m'.view) (hr : Machine.Relocation m' m'' φ) :
    (w.through m' φ).Faithful a m''.view := by
  rintro r r'' ⟨r', hrr, hlive, hφ⟩
  obtain ⟨s, s', hs, hs', hss⟩ := hw r r' hrr
  obtain ⟨ref'', s'', hφ', hs'', him⟩ := hr.record hlive hs'
  rw [hφ] at hφ'
  cases hφ'
  exact ⟨s, s'', hs, hs'', hw.record_through hr hss him fun n hn => .edge hlive hs' hn⟩

/-- A list loses the controls that have been served; all others are moved. -/
theorem Lockstep.listeners_through (hs : Lockstep w m m') (hr : Machine.Relocation m' m'' φ)
    {ls ls' : List Listener} (hls : ListenersAlike w m.view m'.view ls ls')
    (hlive : ∀ c', .control c' ∈ ls' → m'.Live (.variable c')) :
    ListenersAlike (w.through m' φ) m.view m''.view ls (ls'.filterMap (Listener.relocate φ)) := by
  induction hls with
  | nil => exact .nil
  | thread id _ ih =>
    exact .thread id (ih fun c' hc' => hlive c' (List.mem_cons_of_mem _ hc'))
  | @control c c' ls ls' hc _ ih =>
    have hc' := hlive c' (List.mem_cons_self ..)
    obtain ⟨ids, -, hcell⟩ := hs.like.control hc
    obtain ⟨c'', hφ, -⟩ := hr.var hc' hcell
    have hmoved : Listener.relocate φ (.control c') = some (.control c'') := by
      simp [Listener.relocate, hφ, Node.asVariable?]
    rw [List.filterMap_cons_some hmoved]
    exact .control ⟨c', hc, hc', hφ⟩ (ih fun x hx => hlive x (List.mem_cons_of_mem _ hx))
  | servedLeft hc _ ih => exact .servedLeft hc (ih hlive)
  | @servedRight c' ls ls' hd _ ih =>
    have hc' := hlive c' (List.mem_cons_self ..)
    have hunit : φ (.variable c') = .unit := by
      rw [hr.deref hc' hd]
      exact hr.inline (hc'.deref hd) rfl
    have hdropped : Listener.relocate φ (.control c') = none := by
      simp [Listener.relocate, hunit, Node.asVariable?]
    rw [List.filterMap_cons_none hdropped]
    exact ih fun x hx => hlive x (List.mem_cons_of_mem _ hx)

theorem filterMap_relocate_threads (φ : Node → Node) (ids : List ThreadId) :
    (ids.map Listener.thread).filterMap (Listener.relocate φ) = ids.map .thread := by
  rw [List.filterMap_map]
  exact congrFun List.filterMap_eq_map ids

theorem Lockstep.likeness_through (hs : Lockstep w m m') (hr : Machine.Relocation m' m'' φ) :
    Likeness (w.through m' φ) m.view m''.view where
  -- a pair now leads through the middle machine, whose part in it is alive
  record := hs.like.faithful.through hr _ _
  record_left := by
    rintro r r₁ r₂ ⟨r', hrr, -, hφ⟩ ⟨r'', hrr', -, hφ'⟩
    rw [hs.like.record_left hrr hrr', hφ'] at hφ
    cases hφ
    rfl
  -- on the right the relocation is in between, which tells apart what is alive
  record_right := by
    rintro r₁ r₂ r'' ⟨r', hrr, hlive, hφ⟩ ⟨s', hrr', hlive', hφ'⟩
    rw [hr.record_injective hlive hlive' (hφ.trans hφ'.symm)] at hrr
    exact hs.like.record_right hrr hrr'
  var := by
    rintro v v'' ⟨v', hv, hlive, hφ⟩
    obtain ⟨ls, ls', hc, hc', hls⟩ := hs.like.var hv
    obtain ⟨u, hφ', hc''⟩ := hr.var hlive hc'
    rw [hφ] at hφ'
    cases hφ'
    exact ⟨ls, _, hc, hc'', hs.listeners_through hr hls fun c' hm => .control hlive hc' hm⟩
  control := by
    rintro c c'' ⟨c', hcc, hlive, hφ⟩
    obtain ⟨ids, hc, hc'⟩ := hs.like.control hcc
    obtain ⟨u, hφ', hc''⟩ := hr.var hlive hc'
    rw [hφ] at hφ'
    cases hφ'
    exact ⟨ids, hc, hc''.trans (by rw [filterMap_relocate_threads])⟩
  cell_left := by
    intro v v₁ v₂ h h'
    obtain ⟨v', hv, -, hφ⟩ := World.cell_through h
    obtain ⟨v'', hv', -, hφ'⟩ := World.cell_through h'
    rw [hs.like.cell_left hv hv', hφ'] at hφ
    cases hφ
    rfl
  cell_right := by
    intro v₁ v₂ v'' h h'
    obtain ⟨v', hv, hlive, hφ⟩ := World.cell_through h
    obtain ⟨u', hv', hlive', hφ'⟩ := World.cell_through h'
    obtain ⟨ls, ls', -, hc, -⟩ := hs.like.cell hv
    obtain ⟨ks, ks', -, hc', -⟩ := hs.like.cell hv'
    rw [hr.var_injective hlive hlive' hc hc' (hφ.trans hφ'.symm)] at hv
    exact hs.like.cell_right hv hv'
  disjoint := by
    rintro v v'' ⟨v', hv, -, -⟩ ⟨u', hu, -, -⟩
    rw [hs.like.cell_left (.inl hv) (.inr hu)] at hv
    exact hs.like.disjoint hv hu

/-! ### Staying in step -/

/-- A thread that waits or has failed does so after the move. -/
theorem Lockstep.state_through (hs : Lockstep w m m') (hr : Machine.Relocation m' m'' φ)
    {s s' : ThreadState} (hss : StateAlike w.cell w m.view m'.view s s')
    (hwaiting : ∀ v', s' = .waiting v' → m'.Live (.variable v'))
    (hfailed : ∀ e', s' = .failed e' → m'.Live e') :
    StateAlike (w.through m' φ).cell (w.through m' φ) m.view m''.view s (s'.relocate φ) := by
  cases hss with
  | runnable => exact .runnable
  | terminated => exact .terminated
  | failed he => exact .failed (hs.like.faithful.alike_through hr he (hfailed _ rfl))
  | @waiting v v' hv =>
    -- the variable is unbound, so it is moved to a variable
    have hlive := hwaiting v' rfl
    obtain ⟨ls, ls', -, hc', -⟩ := hs.like.cell hv
    obtain ⟨v'', hφ, -⟩ := hr.var hlive hc'
    rw [ThreadState.relocate_eq_waiting.mpr ⟨v', rfl, hφ⟩]
    exact .waiting (hv.imp (fun h => ⟨v', h, hlive, hφ⟩) fun h => ⟨v', h, hlive, hφ⟩)

theorem Lockstep.thread_through (hs : Lockstep w m m') (hr : Machine.Relocation m' m'' φ)
    {t t' : Thread} (ht' : t' ∈ m'.scheduler.threads)
    (ht : ThreadAlike w.cell w m.view m'.view t t') :
    ThreadAlike (w.through m' φ).cell (w.through m' φ) m.view m''.view t (t'.relocate φ) where
  id := ht.id
  code := ht.code
  pc := ht.pc
  registers := hs.like.faithful.nodes_through hr ht.registers fun _ hn => Machine.live_register ht' hn
  state := hs.state_through hr ht.state (fun _ => Machine.live_waiting ht')
    fun _ => Machine.live_failed ht'

theorem Lockstep.through (hs : Lockstep w m m') (hr : Machine.Relocation m' m'' φ) :
    Lockstep (w.through m' φ) m m'' where
  like := hs.likeness_through hr
  roots := by
    rw [hr.roots]
    refine hs.like.faithful.nodes_through hr hs.roots fun n hn => .start ?_
    exact List.mem_append_left _ hn
  threads := by
    rw [hr.threads]
    refine List.forall₂_map_right_iff.mpr (forall₂_imp_right hs.threads fun t' ht' t ht => ?_)
    exact hs.thread_through hr ht' ht
  ready := by rw [hr.ready_eq hs.waitsRight, hs.ready]
  spawned := by rw [hr.spawned, hs.spawned]
  output := by rw [hr.rest.2.2.1, hs.output]
  settings := by rw [hr.rest.2.1, hs.settings]
  id := by rw [hr.rest.1, hs.id]
  ownerLeft := hs.ownerLeft
  ownerRight := by
    rw [hr.table, hr.rest.1]
    exact hs.ownerRight
  waitsLeft := hs.waitsLeft
  waitsRight := Machine.waits_relocation hs.waitsRight hr

/-- The second machine may collect its garbage. -/
theorem Lockstep.collect_right (hs : Lockstep w m m') :
    ∃ m'' w₁, m'.collect = .ok m'' ∧ Lockstep w₁ m m'' := by
  obtain ⟨m'', φ, hc, hr⟩ := hs.collect_ok
  exact ⟨m'', _, hc, hs.through hr⟩

/-- So may the first. -/
theorem Lockstep.collect_left (hs : Lockstep w m m') :
    ∃ m₁ w₁, m.collect = .ok m₁ ∧ Lockstep w₁ m₁ m' := by
  obtain ⟨m₁, w₁, hc, hs₁⟩ := hs.flip.collect_right
  exact ⟨m₁, _, hc, hs₁.flip⟩

end Dataflow
