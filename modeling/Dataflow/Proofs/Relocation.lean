import Dataflow.Proofs.Survey

/-! # What it means to be moved

  A collection moves every node that is alive to a new place. `Machine.Relocation` says what
  it means that a map of nodes describes the move: the map looks through bound variables, keeps
  values, names distinct records and unbound variables apart, and commutes with reading records
  and cells; and the roots and the threads of the new machine are the images of the old ones.

  A survey defines such a map: a record or a variable goes to the place at which the survey has it.
  The machine whose heap holds the copies of what was found is described by that map. Nothing
  is collected here; that a collection ends in this machine is shown later.
-/

namespace Dataflow

/-! ### Images of what holds nodes -/

/-- The image of a listener under a map of nodes. A control that does not lead to a variable has
    none. -/
def Listener.relocate (φ : Node → Node) : Listener → Option Listener
  | .thread id => some (.thread id)
  | .control v => (φ (.variable v)).asVariable?.map .control

/-- The image of a thread's state. A thread whose variable has a value can go on. -/
def ThreadState.relocate (φ : Node → Node) : ThreadState → ThreadState
  | .waiting v =>
    match φ (.variable v) with
    | .variable w => .waiting w
    | _ => .runnable
  | .failed exception => .failed (φ exception)
  | state => state

/-- The image of a thread. -/
def Thread.relocate (φ : Node → Node) (t : Thread) : Thread :=
  { t with registers := t.registers.map φ, state := t.state.relocate φ }

/-- The second record is the image of the first: of the same form, part by part. -/
structure Record.IsImage (φ : Node → Node) (r r' : Record) : Prop where
  /-- The label is the image of the label. -/
  label : r'.label.toNode = φ r.label.toNode
  /-- Both are tuples, or the features of the one are the images of those of the other. -/
  arity : r.arity = .tuple ∧ r'.arity = .tuple ∨
    ∃ names names', r.arity = .features names ∧ r'.arity = .features names' ∧
      names'.map Feature.toNode = names.map fun f => φ f.toNode
  /-- The fields are the images of the fields. -/
  fields : r'.fields = r.fields.map φ

namespace Machine

/-- The nodes that a machine keeps alive: its roots, then those of its threads. -/
def liveNodes (m : Machine) : List Node := m.roots ++ m.scheduler.threads.flatMap Thread.nodes

/-- A node that a machine keeps alive. -/
def Live (m : Machine) (n : Node) : Prop := m.heap.Reaches m.liveNodes n

/-- The map `φ` describes a collection that leads from the first machine to the second. -/
structure Relocation (m m' : Machine) (φ : Node → Node) : Prop where
  /-- Nothing that is alive dangles. -/
  inRange : ∀ {n : Node}, m.Live n → ∃ d, m.heap.deref n = .ok d ∧ m.heap.InRange d
  /-- A node goes where what it stands for goes. -/
  deref : ∀ {n d : Node}, m.Live n → m.heap.deref n = .ok d → φ n = φ d
  /-- Values that are no references stay. -/
  inline : ∀ {n : Node}, m.Live n → n.kind.capabilities.copiesWhole = true → φ n = n
  /-- An atom keeps its content, and becomes the atom of the new table. -/
  atom : ∀ {a : Atom}, m.Live (.atom a) → φ (.atom a) = .atom ⟨m'.atoms.id, a.content⟩ ∧
    m'.atoms.find? a.content = some ⟨m'.atoms.id, a.content⟩
  /-- A record goes to its image. -/
  record : ∀ {ref : RecordRef} {r : Record}, m.Live (.record ref) → m.heap.record ref = .ok r →
    ∃ ref' r', φ (.record ref) = .record ref' ∧ m'.heap.record ref' = .ok r' ∧ r.IsImage φ r'
  /-- Distinct records stay distinct. -/
  record_injective : ∀ {a b : RecordRef}, m.Live (.record a) → m.Live (.record b) →
    φ (.record a) = φ (.record b) → a = b
  /-- An unbound variable goes to an unbound variable with the images of its listeners. -/
  var : ∀ {v : VarRef} {ls : List Listener}, m.Live (.variable v) →
    m.heap.cell v = .ok (.unbound ls) →
    ∃ w, φ (.variable v) = .variable w ∧
      m'.heap.cell w = .ok (.unbound (ls.filterMap (Listener.relocate φ)))
  /-- Distinct unbound variables stay distinct. -/
  var_injective : ∀ {v w : VarRef} {ls ks : List Listener}, m.Live (.variable v) →
    m.Live (.variable w) → m.heap.cell v = .ok (.unbound ls) → m.heap.cell w = .ok (.unbound ks) →
    φ (.variable v) = φ (.variable w) → v = w
  /-- Every record of the new heap comes from one that is alive. -/
  record_surjective : ∀ {ref' : RecordRef} {r' : Record}, m'.heap.record ref' = .ok r' →
    ∃ ref r, m.Live (.record ref) ∧ m.heap.record ref = .ok r ∧ φ (.record ref) = .record ref'
  /-- Every variable of the new heap comes from an unbound one that is alive. -/
  var_surjective : ∀ {w : VarRef} {c : Cell}, m'.heap.cell w = .ok c →
    ∃ v ls, m.Live (.variable v) ∧ m.heap.cell v = .ok (.unbound ls) ∧ φ (.variable v) = .variable w
  /-- The roots are the images of the roots. -/
  roots : m'.roots = m.roots.map φ
  /-- The threads are the images of the threads. -/
  threads : m'.scheduler.threads = m.scheduler.threads.map (Thread.relocate φ)
  /-- A thread that stopped waiting is put at the end of the queue. -/
  ready : m'.scheduler.ready = m.scheduler.ready ++
    (m.scheduler.threads.filter fun t =>
      t.state.isWaiting && (t.state.relocate φ).isRunnable).map Thread.id
  /-- No thread is spawned. -/
  spawned : m'.scheduler.spawned = m.scheduler.spawned
  /-- The table of atoms is the next of the machine's tables. -/
  table : m'.atoms.id = m.atoms.successor.id
  /-- Name, settings and output stay, and nothing counts as allocated. -/
  rest : m'.id = m.id ∧ m'.settings = m.settings ∧ m'.output = m.output ∧
    m'.heap.settings = m.heap.settings ∧ m'.heap.allocated = 0

end Machine

/-! ### Lists of computations -/

theorem mapM_ok {ε α β : Type} {f : α → Except ε β} {g : α → β} {xs : List α}
    (hf : ∀ x ∈ xs, f x = .ok (g x)) : xs.mapM f = .ok (xs.map g) := by
  induction xs with
  | nil => rfl
  | cons x xs ih =>
    have hxs := ih fun y hy => hf y (List.mem_cons_of_mem _ hy)
    simp [hf x (List.mem_cons_self ..), hxs, pure, Except.pure]

theorem mapM_exists {ε α β : Type} {f : α → Except ε β} {xs : List α}
    (hf : ∀ x ∈ xs, ∃ y, f x = .ok y) : ∃ ys, xs.mapM f = .ok ys := by
  induction xs with
  | nil => exact ⟨[], rfl⟩
  | cons x xs ih =>
    obtain ⟨y, hy⟩ := hf x (List.mem_cons_self ..)
    obtain ⟨ys, hys⟩ := ih fun x' hx' => hf x' (List.mem_cons_of_mem _ hx')
    exact ⟨y :: ys, by simp [hy, hys, pure, Except.pure]⟩

theorem mapM_length {ε α β : Type} {f : α → Except ε β} {xs : List α} {ys : List β}
    (hm : xs.mapM f = .ok ys) : ys.length = xs.length := by
  induction xs generalizing ys with
  | nil => cases hm; rfl
  | cons x xs ih =>
    rw [List.mapM_cons] at hm
    obtain ⟨y, -, hm⟩ := bind_eq_ok.mp hm
    obtain ⟨ys, hxs, hm⟩ := bind_eq_ok.mp hm
    cases hm
    simp [ih hxs]

theorem mapM_of_getElem? {ε α β : Type} {f : α → Except ε β} {xs : List α} {ys : List β}
    (hlen : xs.length = ys.length)
    (hf : ∀ (i : Nat) (x : α), xs[i]? = some x → ∃ y, ys[i]? = some y ∧ f x = .ok y) : xs.mapM f = .ok ys := by
  induction xs generalizing ys with
  | nil =>
    obtain rfl := List.eq_nil_of_length_eq_zero hlen.symm
    rfl
  | cons x xs ih =>
    obtain ⟨y, hy, hfx⟩ := hf 0 x rfl
    cases ys with
    | nil => cases hy
    | cons y' ys =>
      cases hy
      have hxs := ih (by simpa using hlen) fun i x hi => hf (i + 1) x hi
      rw [List.mapM_cons, hfx, ok_bind, hxs, ok_bind]
      rfl

theorem mapM_getElem? {ε α β : Type} {f : α → Except ε β} {xs : List α} {ys : List β}
    (hm : xs.mapM f = .ok ys) {i : Nat} {x : α} (hx : xs[i]? = some x) :
    ∃ y, ys[i]? = some y ∧ f x = .ok y := by
  induction xs generalizing ys i with
  | nil => simp at hx
  | cons x' xs ih =>
    rw [List.mapM_cons] at hm
    obtain ⟨y, hy, hm⟩ := bind_eq_ok.mp hm
    obtain ⟨ys, hxs, hm⟩ := bind_eq_ok.mp hm
    cases hm
    cases i with
    | zero =>
      cases hx
      exact ⟨y, rfl, hy⟩
    | succ i => exact ih hxs (by simpa using hx)

namespace Survey

variable {h : Heap} {s : Survey} {start : List Node}

/-! ### The map of a survey -/

/-- The new node that a node of the old heap stands for. -/
def image (s : Survey) (h : Heap) (n : Node) : Except Fault Node := do
  match ← h.deref n with
  | .atom a => return .atom ⟨s.atoms.id, a.content⟩
  | .record r => return .record ⟨s.records.idxOf r⟩
  | .variable v => return .variable ⟨s.vars.idxOf v⟩
  | value => return value

/-- Where a survey moves a node. -/
def moved (s : Survey) (h : Heap) (n : Node) : Node :=
  match s.image h n with
  | .ok image => image
  | .error _ => n

/-- Where a survey moves a dereferenced node. -/
def place (s : Survey) : Node → Node
  | .atom a => .atom ⟨s.atoms.id, a.content⟩
  | .record ref => .record ⟨s.records.idxOf ref⟩
  | .variable v => .variable ⟨s.vars.idxOf v⟩
  | n => n

theorem image_of_deref {n d : Node} (hd : h.deref n = .ok d) : s.image h n = .ok (s.place d) := by
  unfold image
  rw [hd]
  cases d <;> rfl

theorem moved_of_deref {n d : Node} (hd : h.deref n = .ok d) : s.moved h n = s.place d := by
  unfold moved
  rw [image_of_deref hd]

theorem image_of_covers {n : Node} (hn : s.Covers h n) : s.image h n = .ok (s.moved h n) := by
  obtain ⟨d, hd, -⟩ := hn
  rw [image_of_deref hd, moved_of_deref hd]

theorem moved_variable {v : VarRef} {ls : List Listener} (hc : h.cell v = .ok (.unbound ls)) :
    s.moved h (.variable v) = .variable ⟨s.vars.idxOf v⟩ :=
  moved_of_deref (Heap.deref_unbound hc)

/-! ### The copies of what was found -/

/-- A literal with its atom in the new table. -/
def literal (s : Survey) : Literal → Literal
  | .atom a => .atom ⟨s.atoms.id, a.content⟩
  | l => l

/-- A feature with its atom in the new table. -/
def feature (s : Survey) : Feature → Feature
  | .int i => .int i
  | .literal l => .literal (s.literal l)

theorem literal_toNode (l : Literal) : (s.literal l).toNode = s.moved h l.toNode := by
  cases l <;> rfl

theorem feature_toNode (f : Feature) : (s.feature f).toNode = s.moved h f.toNode := by
  cases f with
  | int i => rfl
  | literal l => exact literal_toNode l

def arity (s : Survey) : Arity → Arity
  | .tuple => .tuple
  | .features names => .features (names.map s.feature)

/-- The copy of a record. -/
def copyRecord (s : Survey) (h : Heap) (r : Record) : Record where
  label := s.literal r.label
  arity := s.arity r.arity
  fields := r.fields.map (s.moved h)

/-- The copy of an unbound variable. -/
def copyCell (s : Survey) (h : Heap) (ls : List Listener) : Cell :=
  .unbound (ls.filterMap (Listener.relocate (s.moved h)))

/-- The heap of the copies, which counts them as allocated. -/
def copyHeap (s : Survey) (h : Heap) : Except Fault Heap := do
  let records ← s.records.mapM fun ref => do return s.copyRecord h (← h.record ref)
  let cells ← s.vars.mapM fun v => do return s.copyCell h (← h.listeners v)
  return {
    settings := h.settings
    records := records.toArray
    cells := cells.toArray
    allocated := s.records.length + s.vars.length }

theorem isImage_copyRecord (r : Record) : r.IsImage (s.moved h) (s.copyRecord h r) := by
  refine ⟨literal_toNode r.label, ?_, rfl⟩
  cases ha : r.arity with
  | tuple => exact .inl ⟨rfl, by simp [copyRecord, arity, ha]⟩
  | features names =>
    refine .inr ⟨names, names.map s.feature, rfl, by simp [copyRecord, arity, ha], ?_⟩
    rw [List.map_map]
    exact List.map_congr_left fun f _ => feature_toNode f

/-- The heap of the copies: it has the image of every record and of every variable found, in their
    order. -/
theorem copyHeap_ok (hf : Found h start [] s) :
    ∃ h', s.copyHeap h = .ok h' ∧ h'.settings = h.settings ∧
      h'.records.size = s.records.length ∧ h'.cells.size = s.vars.length ∧
      (∀ {i : Nat} {ref : RecordRef} {r : Record}, s.records[i]? = some ref →
        h.record ref = .ok r → ∃ r', h'.record ⟨i⟩ = .ok r' ∧ r.IsImage (s.moved h) r') ∧
      (∀ {i : Nat} {v : VarRef} {ls : List Listener}, s.vars[i]? = some v →
        h.cell v = .ok (.unbound ls) →
        h'.cell ⟨i⟩ = .ok (.unbound (ls.filterMap (Listener.relocate (s.moved h))))) := by
  -- whatever was found can be read
  have hrec : ∀ ref ∈ s.records, ∃ r',
      (do return s.copyRecord h (← h.record ref) : Except Fault Record) = .ok r' := by
    intro ref href
    obtain ⟨r, hr, -⟩ := hf.record ref href
    exact ⟨_, by rw [hr, ok_bind]; rfl⟩
  have hvar : ∀ v ∈ s.vars, ∃ c,
      (do return s.copyCell h (← h.listeners v) : Except Fault Cell) = .ok c := by
    intro v hv
    obtain ⟨ls, hc, -⟩ := hf.var v hv
    exact ⟨_, by rw [listeners_of_unbound hc, ok_bind]; rfl⟩
  obtain ⟨records, hrecords⟩ := mapM_exists hrec
  obtain ⟨cells, hcells⟩ := mapM_exists hvar
  let copy : Heap :=
    { settings := h.settings, records := records.toArray, cells := cells.toArray
      allocated := s.records.length + s.vars.length }
  have hcopy : s.copyHeap h = .ok copy := by rw [copyHeap, hrecords, ok_bind, hcells]; rfl
  refine ⟨copy, hcopy, rfl, ?_, ?_, ?_, ?_⟩
  · simpa [copy] using mapM_length hrecords
  · simpa [copy] using mapM_length hcells
  · intro i ref r hi hr
    obtain ⟨r', hr', hcopied⟩ := mapM_getElem? hrecords hi
    rw [hr, ok_bind] at hcopied
    cases hcopied
    exact ⟨_, Heap.record_eq_ok_iff.mpr (by simpa [copy] using hr'), isImage_copyRecord r⟩
  · intro i v ls hi hc
    obtain ⟨c, hc', hcopied⟩ := mapM_getElem? hcells hi
    rw [listeners_of_unbound hc, ok_bind] at hcopied
    cases hcopied
    exact Heap.cell_eq_ok_iff.mpr (by simpa [copy, copyCell] using hc')

/-! ### Where things are moved to -/

theorem moved_record (ref : RecordRef) : s.moved h (.record ref) = .record ⟨s.records.idxOf ref⟩ :=
  moved_of_deref (Heap.deref_of_value rfl)

theorem idxOf_injective {α : Type} [DecidableEq α] {xs : List α} {a b : α} (ha : a ∈ xs)
    (hb : b ∈ xs) (hab : xs.idxOf a = xs.idxOf b) : a = b := by
  have hga := List.getElem_idxOf (List.idxOf_lt_length_of_mem ha)
  have hgb := List.getElem_idxOf (List.idxOf_lt_length_of_mem hb)
  rw [← hga, ← hgb]
  simp [hab]

theorem getElem?_idxOf {α : Type} [DecidableEq α] {xs : List α} {a : α} (ha : a ∈ xs) :
    xs[xs.idxOf a]? = some a := by
  rw [List.getElem?_eq_getElem (List.idxOf_lt_length_of_mem ha), List.getElem_idxOf]

/-- Values that are no references are not moved. -/
theorem moved_inline {n : Node} (hn : n.kind.capabilities.copiesWhole = true) :
    s.moved h n = n := by
  cases n with
  | atom a => cases hn
  | record ref => cases hn
  | «variable» v => cases hn
  | _ => rfl

theorem mem_of_covers_record {ref : RecordRef} (hc : s.Covers h (.record ref)) :
    ref ∈ s.records := by
  obtain ⟨d, hd, hs⟩ := hc
  rw [Heap.deref_of_value rfl] at hd
  cases hd
  exact hs

theorem mem_of_covers_variable {v : VarRef} {ls : List Listener} (hv : s.Covers h (.variable v))
    (hc : h.cell v = .ok (.unbound ls)) : v ∈ s.vars := by
  obtain ⟨d, hd, hs⟩ := hv
  rw [Heap.deref_unbound hc] at hd
  cases hd
  exact hs

theorem Found.mem_records (hf : Found h start [] s) {ref : RecordRef}
    (hr : h.Reaches start (.record ref)) : ref ∈ s.records :=
  mem_of_covers_record (hf.covers hr)

theorem Found.mem_vars (hf : Found h start [] s) {v : VarRef} {ls : List Listener}
    (hv : h.Reaches start (.variable v)) (hc : h.cell v = .ok (.unbound ls)) : v ∈ s.vars :=
  mem_of_covers_variable (hf.covers hv) hc

/-- What has been found does not dangle. -/
theorem Found.inRange (hf : Found h start [] s) {n : Node} (hn : h.Reaches start n) :
    ∃ d, h.deref n = .ok d ∧ h.InRange d := by
  obtain ⟨d, hd, hh⟩ := hf.covers hn
  refine ⟨d, hd, ?_⟩
  cases d with
  | record ref =>
    obtain ⟨r, hr, -⟩ := hf.record ref hh
    exact Heap.inRange_of_record hr
  | «variable» v =>
    obtain ⟨ls, hc⟩ := Heap.cell_of_deref hd
    exact Heap.inRange_of_cell hc
  | _ => trivial

end Survey

theorem Node.asVariable?_eq_none {n : Node} : n.asVariable? = none ↔ n.kind ≠ .variable := by
  cases n <;> simp [Node.asVariable?, Node.kind]

theorem Node.asVariable?_of_kind {n n' : Node} (hk : n'.kind = n.kind) (hn : n.asVariable? = none) :
    n'.asVariable? = none := by
  rw [Node.asVariable?_eq_none] at hn ⊢
  rwa [hk]

/-- What a thread holds: its registers, what it waits for, and what it has raised. -/
theorem Thread.mem_nodes {t : Thread} {n : Node} : n ∈ t.nodes ↔
    n ∈ t.registers ∨ (∃ v, t.state = .waiting v ∧ n = .variable v) ∨ t.state = .failed n := by
  unfold Thread.nodes
  cases hs : t.state with
  | runnable => simp
  | terminated => simp
  | waiting v => simp
  | failed e => simp [eq_comm]

namespace Machine

variable {m m' : Machine} {s : Survey}

/-! ### The machine of a survey -/

/-- Everything that is reachable from the nodes, with its atoms in the next table. -/
def survey (m : Machine) (nodes : List Node) : Except Fault Survey :=
  Survey.ofNodes m.heap m.atoms.successor nodes

/-- The machine with everything moved to where a survey has it, and with this heap. -/
def relocated (m : Machine) (s : Survey) (heap : Heap) : Machine :=
  let φ := s.moved m.heap
  let resumed := m.scheduler.threads.filter fun t =>
    t.state.isWaiting && (t.state.relocate φ).isRunnable
  { m with
    atoms := s.atoms
    heap := { heap with allocated := 0 }
    roots := m.roots.map φ
    scheduler := { m.scheduler with
      threads := m.scheduler.threads.map (Thread.relocate φ)
      ready := m.scheduler.ready ++ resumed.map Thread.id } }

/-- What a collection comes to, described in two steps: everything that is alive is surveyed,
    and then copied to the places that it has in the survey. -/
def copyLive (m : Machine) : Except Fault Machine := do
  let s ← m.survey m.liveNodes
  return m.relocated s (← s.copyHeap m.heap)

/-- The machine of a survey is described by the map of the survey. -/
theorem relocation_of_found (hf : Survey.Found m.heap m.liveNodes [] s)
    (htable : s.atoms.id = m.atoms.successor.id) {heap : Heap}
    (hcopy : s.copyHeap m.heap = .ok heap) :
    Relocation m (m.relocated s heap) (s.moved m.heap) := by
  have hcov : ∀ {n : Node}, m.Live n → s.Covers m.heap n := fun hn => hf.covers hn
  obtain ⟨h', hcopy', hsettings, hrsize, hvsize, hrecord, hcell⟩ := Survey.copyHeap_ok hf
  rw [hcopy] at hcopy'
  cases hcopy'
  refine
    { inRange := fun hn => hf.inRange hn, deref := ?_
      inline := fun _ hn => Survey.moved_inline hn, atom := ?_, record := ?_
      record_injective := ?_, var := ?_, var_injective := ?_, record_surjective := ?_
      var_surjective := ?_, roots := rfl, threads := rfl, ready := rfl, spawned := rfl
      table := htable, rest := ⟨rfl, rfl, rfl, hsettings, rfl⟩ }
  · intro n d _ hd
    rw [Survey.moved_of_deref hd, Survey.moved_of_deref (Heap.deref_deref hd)]
  · intro a ha
    obtain ⟨d, hd, hh⟩ := hcov ha
    rw [Heap.deref_of_value rfl] at hd
    cases hd
    have hmem : a.content ∈ s.atoms.contents := hh
    exact ⟨rfl, by simp [relocated, AtomTable.find?, hmem]⟩
  · intro ref r href hr
    obtain ⟨r', hr', him⟩ := hrecord (Survey.getElem?_idxOf (hf.mem_records href)) hr
    exact ⟨_, r', Survey.moved_record ref, hr', him⟩
  · intro a b ha hb hab
    simp only [Survey.moved_record, Node.record.injEq, RecordRef.mk.injEq] at hab
    exact Survey.idxOf_injective (hf.mem_records ha) (hf.mem_records hb) hab
  · intro v ls hv hc
    exact ⟨_, Survey.moved_variable hc, hcell (Survey.getElem?_idxOf (hf.mem_vars hv hc)) hc⟩
  · intro v w ls ks hv hw hc hd hvw
    simp only [Survey.moved_variable hc, Survey.moved_variable hd, Node.variable.injEq,
      VarRef.mk.injEq] at hvw
    exact Survey.idxOf_injective (hf.mem_vars hv hc) (hf.mem_vars hw hd) hvw
  -- a place in the new heap is a place in the list of what was found
  · rintro ⟨i⟩ r' hr'
    have hi : i < s.records.length := by
      have := (Array.getElem?_eq_some_iff.mp (Heap.record_eq_ok_iff.mp hr')).1
      simpa [relocated, hrsize] using this
    obtain ⟨r, hr, -⟩ := hf.record s.records[i] (List.getElem_mem hi)
    refine ⟨s.records[i], r, hf.reached_record _ (List.getElem_mem hi), hr, ?_⟩
    rw [Survey.moved_record, hf.records_nodup.idxOf_getElem i hi]
  · rintro ⟨i⟩ c hc
    have hi : i < s.vars.length := by simpa [relocated, hvsize] using Heap.lt_of_cell hc
    obtain ⟨ls, hls, -⟩ := hf.var s.vars[i] (List.getElem_mem hi)
    refine ⟨s.vars[i], ls, hf.reached_var _ (List.getElem_mem hi), hls, ?_⟩
    rw [Survey.moved_variable hls, hf.vars_nodup.idxOf_getElem i hi]

theorem relocation_of_copyLive (hc : m.copyLive = .ok m') : ∃ φ, Relocation m m' φ := by
  obtain ⟨s, hs, hc⟩ := bind_eq_ok.mp hc
  obtain ⟨heap, hcopy, hc⟩ := bind_eq_ok.mp hc
  cases hc
  obtain ⟨hf, htable⟩ := Survey.found_walk hs (Survey.found_initial _ _ _)
  exact ⟨_, relocation_of_found hf htable hcopy⟩

/-! ### What follows from being moved -/

/-- What a thread holds is alive. -/
theorem live_thread {t : Thread} (ht : t ∈ m.scheduler.threads) {n : Node} (hn : n ∈ t.nodes) :
    m.Live n :=
  .start (List.mem_append_right _ (List.mem_flatMap.mpr ⟨t, ht, hn⟩))

theorem live_register {t : Thread} (ht : t ∈ m.scheduler.threads) {n : Node}
    (hn : n ∈ t.registers) : m.Live n :=
  live_thread ht (Thread.mem_nodes.mpr (.inl hn))

theorem live_waiting {t : Thread} (ht : t ∈ m.scheduler.threads) {v : VarRef}
    (hs : t.state = .waiting v) : m.Live (.variable v) :=
  live_thread ht (Thread.mem_nodes.mpr (.inr (.inl ⟨v, hs, rfl⟩)))

theorem live_failed {t : Thread} (ht : t ∈ m.scheduler.threads) {e : Node}
    (hs : t.state = .failed e) : m.Live e :=
  live_thread ht (Thread.mem_nodes.mpr (.inr (.inr hs)))

namespace Relocation

variable {φ : Node → Node}

/-- A node is moved to a node of the same kind. -/
theorem kind (hr : Relocation m m' φ) {d : Node} (hn : m.Live d) (hd : m.heap.deref d = .ok d) :
    (φ d).kind = d.kind := by
  cases d with
  | atom a => rw [(hr.atom hn).1]; rfl
  | record ref =>
    obtain ⟨e, he, hin⟩ := hr.inRange hn
    rw [hd] at he
    cases he
    obtain ⟨r, href⟩ := Heap.record_of_inRange hin
    obtain ⟨ref', r', hφ, -⟩ := hr.record hn href
    rw [hφ]
    rfl
  | «variable» v =>
    obtain ⟨ls, hc⟩ := Heap.cell_of_deref hd
    obtain ⟨w, hφ, -⟩ := hr.var hn hc
    rw [hφ]
    rfl
  | _ => rw [hr.inline hn rfl]

/-- The image of a node stands for the image of what the node stands for. -/
theorem deref_image (hr : Relocation m m' φ) {n d : Node} (hn : m.Live n)
    (hd : m.heap.deref n = .ok d) : m'.heap.deref (φ n) = .ok (φ d) := by
  rw [hr.deref hn hd]
  have hlive : m.Live d := hn.deref hd
  have hdd := Heap.deref_deref hd
  rcases d.value_or_variable with hv | ⟨v, rfl⟩
  · exact Heap.deref_of_value (Node.asVariable?_of_kind (hr.kind hlive hdd) hv)
  · obtain ⟨ls, hc⟩ := Heap.cell_of_deref hd
    obtain ⟨w, hφ, hw⟩ := hr.var hlive hc
    rw [hφ]
    exact Heap.deref_unbound hw

/-- Who listens to a variable listens to its image. -/
theorem listens (hr : Relocation m m' φ) {l l' : Listener} {v : VarRef} (hv : m.Live (.variable v))
    (hl : m.heap.Listens l v) (hl' : l.relocate φ = some l') :
    ∃ w, φ (.variable v) = .variable w ∧ m'.heap.Listens l' w := by
  obtain ⟨ls, hc, hm⟩ := hl
  obtain ⟨w, hφ, hw⟩ := hr.var hv hc
  exact ⟨w, hφ, _, hw, List.mem_filterMap.mpr ⟨l, hm, hl'⟩⟩

/-- A variable of the new heap comes from an unbound one, and has the images of its listeners. -/
theorem cell_before (hr : Relocation m m' φ) {w : VarRef} {c : Cell} (hc : m'.heap.cell w = .ok c) :
    ∃ v ls, m.Live (.variable v) ∧ m.heap.cell v = .ok (.unbound ls) ∧
      φ (.variable v) = .variable w ∧ c = .unbound (ls.filterMap (Listener.relocate φ)) := by
  obtain ⟨v, ls, hlive, hv, hφ⟩ := hr.var_surjective hc
  obtain ⟨w', hφ', hw'⟩ := hr.var hlive hv
  rw [hφ] at hφ'
  cases hφ'
  rw [hc] at hw'
  cases hw'
  exact ⟨v, ls, hlive, hv, hφ, rfl⟩

/-- A record of the new heap is the image of one of the old heap. -/
theorem record_before (hr : Relocation m m' φ) {ref' : RecordRef} {r' : Record}
    (href' : m'.heap.record ref' = .ok r') :
    ∃ ref r, m.Live (.record ref) ∧ m.heap.record ref = .ok r ∧ φ (.record ref) = .record ref' ∧
      r.IsImage φ r' := by
  obtain ⟨ref, r, hlive, href, hφ⟩ := hr.record_surjective href'
  obtain ⟨ref'', r'', hφ', href'', him⟩ := hr.record hlive href
  rw [hφ] at hφ'
  cases hφ'
  rw [href'] at href''
  cases href''
  exact ⟨ref, r, hlive, href, hφ, him⟩

/-- Who listens in the new heap listened in the old one. -/
theorem listens_before (hr : Relocation m m' φ) {l' : Listener} {w : VarRef}
    (hl' : m'.heap.Listens l' w) : ∃ v l, m.Live (.variable v) ∧ φ (.variable v) = .variable w ∧
      m.heap.Listens l v ∧ l.relocate φ = some l' := by
  obtain ⟨ls', hw, hm⟩ := hl'
  obtain ⟨v, ls, hlive, hv, hφ, he⟩ := hr.cell_before hw
  cases he
  obtain ⟨l, hl, he⟩ := List.mem_filterMap.mp hm
  exact ⟨v, l, hlive, hφ, ⟨ls, hv, hl⟩, he⟩

theorem thread_listens_before (hr : Relocation m m' φ) {id : ThreadId} {w : VarRef}
    (hl' : m'.heap.Listens (.thread id) w) : ∃ v, m.Live (.variable v) ∧
      φ (.variable v) = .variable w ∧ m.heap.Listens (.thread id) v := by
  obtain ⟨v, l, hlive, hφ, hl, he⟩ := hr.listens_before hl'
  cases l with
  | thread id' => cases he; exact ⟨v, hlive, hφ, hl⟩
  | control c => simp [Listener.relocate] at he

end Relocation

end Machine

end Dataflow
