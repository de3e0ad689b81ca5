import Dataflow.Proofs.Closure

/-! # Atoms of the current table

  A collection gives up the table of atoms and fills the next one with the atoms that it moves. An
  atom is *listed* if it is the very atom that the current table gives for its content. A machine is
  *stocked* if all atoms in it are listed: those in its records, in its bound cells, in its roots and
  with its threads.

  Whatever is made of listed nodes is listed, and an atom stays listed until the next collection. So
  calls and turns leave a stocked machine stocked, and a collection does so because it moves every
  atom that can still be found.

  Beside that we note which contents a step adds to the table: those of the atoms that can be found in
  what it gives out.
-/

open Relation (ReflTransGen)

namespace Dataflow

/-! ### Tables -/

theorem AtomTable.find?_eq_some_iff {t : AtomTable} {content : String} {a : Atom} :
    t.find? content = some a ↔ content ∈ t.contents ∧ a = ⟨t.id, content⟩ := by
  unfold AtomTable.find?
  split
  · next hm => simp [hm, eq_comm]
  · next hm => simp [hm]

theorem AtomTable.isSome_find? {t : AtomTable} {content : String} :
    (t.find? content).isSome = true ↔ content ∈ t.contents := by
  unfold AtomTable.find?
  split
  · next hm => simp [hm]
  · next hm => simp [hm]

theorem Heap.Parts.holds {h : Heap} {n x : Node} (hx : h.Parts n x) : h.Holds n x := by
  unfold Heap.Parts at hx
  induction hx with
  | refl => exact .refl
  | tail _ hpart ih => exact ReflTransGen.tail ih (.inl hpart)

/-- An atom with this content can be found in the node, without looking through variables. -/
def Heap.Mentions (h : Heap) (n : Node) (content : String) : Prop :=
  ∃ a, h.Parts n (.atom a) ∧ a.content = content

/-! ### The table of a walk -/

/-- Visiting an atom inserts its content, and visiting anything else leaves the table. -/
theorem Survey.visit_atoms {h : Heap} {s s' : Survey} {d : Node} {new : List Node}
    (hv : s.visit h d = .ok (new, s')) :
    s'.atoms = s.atoms ∨ ∃ a, d = .atom a ∧ s'.atoms = s.atoms.insert a.content := by
  cases d with
  | atom a =>
    cases hv
    exact .inr ⟨a, rfl, rfl⟩
  | record ref =>
    dsimp only [Survey.visit] at hv
    split at hv
    · cases hv
      exact .inl rfl
    · obtain ⟨r, -, hv⟩ := bind_eq_ok.mp hv
      cases hv
      exact .inl rfl
  | «variable» v =>
    dsimp only [Survey.visit] at hv
    split at hv
    · cases hv
      exact .inl rfl
    · obtain ⟨ls, -, hv⟩ := bind_eq_ok.mp hv
      cases hv
      exact .inl rfl
  | _ =>
    cases hv
    exact .inl rfl

/-- A walk inserts the contents of reachable atoms, each of them once. -/
theorem Survey.contents_walk {h : Heap} {n : Nat} {start pending : List Node} {s s' : Survey}
    (hw : walk h n pending s = .ok s') (hf : Found h start pending s)
    (hnodup : s.atoms.contents.Nodup) :
    s'.atoms.contents.Nodup ∧ ∀ content ∈ s'.atoms.contents,
      content ∈ s.atoms.contents ∨ ∃ a, h.Reaches start (.atom a) ∧ a.content = content := by
  -- along the walk: a content enters with an atom that is visited, and such an atom is reached
  induction n generalizing pending s with
  | zero =>
    cases pending with
    | nil =>
      cases hw
      exact ⟨hnodup, fun _ hc => .inl hc⟩
    | cons node rest => cases hw
  | succ n ih =>
    cases pending with
    | nil =>
      cases hw
      exact ⟨hnodup, fun _ hc => .inl hc⟩
    | cons node rest =>
      rw [walk_cons] at hw
      obtain ⟨d, hd, hw⟩ := bind_eq_ok.mp hw
      obtain ⟨⟨new, s₁⟩, hv, hw⟩ := bind_eq_ok.mp hw
      obtain ⟨hf₁, -⟩ := found_visit hf hd hv
      have hreach : h.Reaches start d := (hf.reached node (List.mem_cons_self ..)).deref hd
      rcases visit_atoms hv with hsame | ⟨a, hatom, hinsert⟩
      · rw [← hsame] at hnodup ⊢
        exact ih hw hf₁ hnodup
      · obtain ⟨hnodup', hfrom⟩ := ih hw hf₁
          (hinsert ▸ AtomTable.nodup_contents_insert hnodup a.content)
        refine ⟨hnodup', fun content hc => ?_⟩
        rcases hfrom content hc with hc | hlive
        · rw [hinsert, AtomTable.mem_contents_insert] at hc
          rcases hc with rfl | hc
          · exact .inr ⟨a, hatom ▸ hreach, rfl⟩
          · exact .inl hc
        · exact .inr hlive

namespace Machine

variable {m m' m'' : Machine}

/-! ### Listed atoms -/

/-- The node is no atom, or the atom that the table gives for its content. -/
def Listed (m : Machine) (n : Node) : Prop := ∀ a, n = .atom a → m.atoms.find? a.content = some a

theorem listed_atom {a : Atom} :
    m.Listed (.atom a) ↔ a.content ∈ m.atoms.contents ∧ a.table = m.atoms.id := by
  constructor
  · intro ha
    obtain ⟨hm, he⟩ := AtomTable.find?_eq_some_iff.mp (ha a rfl)
    exact ⟨hm, by rw [he]⟩
  · rintro ⟨hm, ht⟩ b hb
    cases hb
    exact AtomTable.find?_eq_some_iff.mpr ⟨hm, by rw [← ht]⟩

theorem listed_of_asAtom? {n : Node} (hn : n.asAtom? = none) : m.Listed n := by
  rintro a rfl
  cases hn

/-- Two atoms of a machine are compared as they stand. -/
theorem equals_atoms {a b : Atom} (ha : a.owner = m.id) (hb : b.owner = m.id) :
    m.equals (.atom a) (.atom b) = .ok (decide (a = b)) := by
  have hderef : ∀ c : Atom, m.heap.deref (.atom c) = .ok (.atom c) :=
    fun c => Heap.deref_of_value rfl
  unfold equals Heap.equals Heap.pairBound
  rw [Nat.add_comm, Heap.equalPairs, hderef, hderef]
  by_cases hab : a = b
  · simp [Node.sameValue, Atom.same, hb, hab, Heap.equalPairs]
  · simp [Node.sameValue, Atom.same, ha, hb, hab, pure, Except.pure]

/-- An atom stays listed until the next collection. -/
theorem Listed.continues {n : Node} (hn : m.Listed n) (hc : Continues m m') : m'.Listed n := by
  rintro a rfl
  obtain ⟨hm, ht⟩ := listed_atom.mp hn
  exact listed_atom.mpr ⟨hc.interned _ hm, ht.trans hc.table.symm⟩ a rfl

/-- A machine in which all atoms are listed. -/
structure Stocked (m : Machine) : Prop where
  /-- Records are canonical. -/
  canonical : m.heap.Canonical
  /-- Its table makes atoms of its own. -/
  table : m.atoms.id.owner = m.id
  /-- No content stands in the table twice. -/
  nodup : m.atoms.contents.Nodup
  /-- Atoms in records are listed. -/
  edges : ∀ {ref : RecordRef} {r : Record}, m.heap.record ref = .ok r → ∀ n ∈ r.edges, m.Listed n
  /-- Atoms that variables are bound to are listed. -/
  values : ∀ {v : VarRef} {x : Node}, m.heap.cell v = .ok (.bound x) → m.Listed x
  /-- Atoms among the roots are listed. -/
  roots : ∀ n ∈ m.roots, m.Listed n
  /-- Atoms that threads hold are listed. -/
  threads : ∀ t ∈ m.scheduler.threads, t.Within m.Listed

theorem Stocked.listed_holds (hs : m.Stocked) {n x : Node} (hn : m.Listed n)
    (hx : m.heap.Holds n x) : m.Listed x := by
  unfold Heap.Holds at hx
  induction hx with
  | refl => exact hn
  | tail _ hstep _ =>
    rcases hstep with ⟨ref, r, -, hr, hmem⟩ | ⟨v, -, hv⟩
    · exact hs.edges hr _ hmem
    · exact hs.values hv

theorem Stocked.listed_deref (hs : m.Stocked) {n d : Node} (hn : m.Listed n)
    (hd : m.heap.deref n = .ok d) : m.Listed d :=
  hs.listed_holds hn (Heap.holds_deref hd)

/-- What can be found in a listed node stands in the table. -/
theorem Stocked.mem_of_mentions (hs : m.Stocked) {n : Node} (hn : m.Listed n) {content : String}
    (hc : m.heap.Mentions n content) : content ∈ m.atoms.contents := by
  obtain ⟨a, hparts, rfl⟩ := hc
  exact (listed_atom.mp (hs.listed_holds hn hparts.holds)).1

/-! ### Steps from one stocked machine to the next -/

/-- The second machine is stocked, and continues the first. -/
structure Stocks (m m' : Machine) : Prop where
  stocked : m'.Stocked
  continues : Continues m m'

theorem Stocked.stocks (hs : m.Stocked) : m.Stocks m := ⟨hs, .of_eq rfl rfl rfl⟩

theorem Stocks.trans (h₁ : m.Stocks m') (h₂ : m'.Stocks m'') : m.Stocks m'' :=
  ⟨h₂.stocked, h₁.continues.trans h₂.continues⟩

theorem Stocks.listed (hs : m.Stocks m') {n : Node} (hn : m.Listed n) : m'.Listed n :=
  hn.continues hs.continues

/-- A machine that goes on is stocked if what it has got is listed. -/
theorem Stocked.extend (hs : m.Stocked) (hc : Continues m m') (hnodup : m'.atoms.contents.Nodup)
    (hrecords : ∀ {ref : RecordRef} {r : Record}, m'.heap.record ref = .ok r →
      m.heap.record ref = .ok r ∨ r.Canonical ∧ ∀ n ∈ r.edges, m.Listed n)
    (hvalues : ∀ {v : VarRef} {x : Node}, m'.heap.cell v = .ok (.bound x) →
      m.heap.cell v = .ok (.bound x) ∨ m.Listed x)
    (hroots : ∀ n ∈ m'.roots, m.Listed n)
    (hthreads : ∀ t ∈ m'.scheduler.threads, t.Within m.Listed) : m.Stocks m' := by
  have hlisted : ∀ {n : Node}, m.Listed n → m'.Listed n := fun hn => hn.continues hc
  refine ⟨⟨fun hr => ?_, ?_, hnodup, fun hr n hn => ?_, fun hv => ?_,
    fun n hn => hlisted (hroots n hn), fun t ht => (hthreads t ht).mono fun n hn => hlisted hn⟩, hc⟩
  · rcases hrecords hr with hr | ⟨hcanon, -⟩
    · exact hs.canonical hr
    · exact hcanon
  · rw [hc.table, hc.id]
    exact hs.table
  · rcases hrecords hr with hr | ⟨-, hedges⟩
    · exact hlisted (hs.edges hr n hn)
    · exact hlisted (hedges n hn)
  · rcases hvalues hv with hv | hx
    · exact hlisted (hs.values hv)
    · exact hlisted hx

/-- Steps that leave the table and the heap. -/
theorem Stocked.of_eq (hs : m.Stocked) (hid : m'.id = m.id) (hatoms : m'.atoms = m.atoms)
    (hheap : m'.heap = m.heap) (hroots : ∀ n ∈ m'.roots, m.Listed n)
    (hthreads : ∀ t ∈ m'.scheduler.threads, t.Within m.Listed) : m.Stocks m' :=
  hs.extend (.of_eq hid hatoms hheap) (hatoms ▸ hs.nodup) (fun hr => .inl (by rwa [hheap] at hr))
    (fun hv => .inl (by rwa [hheap] at hv)) hroots hthreads

/-- Steps that change who waits for whom, and allocate variables. -/
theorem Stocked.withHeap (hs : m.Stocked) {heap : Heap} (hg : m.heap.Grows heap)
    (hrecords : heap.records = m.heap.records)
    (hvalues : ∀ {v : VarRef} {x : Node}, heap.cell v = .ok (.bound x) →
      m.heap.cell v = .ok (.bound x)) : m.Stocks { m with heap } :=
  hs.extend (.of_grows rfl rfl hg) hs.nodup
    (fun hr => .inl (by rwa [Heap.record_congr hrecords] at hr)) (fun hv => .inl (hvalues hv))
    hs.roots hs.threads

theorem Stocked.intern (hs : m.Stocked) (content : String) :
    m.Stocks { m with atoms := m.atoms.insert content } :=
  hs.extend (continues_of_change (.intern m content)) (AtomTable.nodup_contents_insert hs.nodup content)
    .inl .inl hs.roots hs.threads

theorem Stocked.allocate (hs : m.Stocked) {r : Record} (hcanon : r.Canonical)
    (hedges : ∀ n ∈ r.edges, m.Listed n) : m.Stocks (m.allocate r).2 := by
  refine hs.extend (.of_grows rfl rfl (Heap.grows_allocateRecord m.heap r)) hs.nodup (fun hr => ?_)
    .inl hs.roots hs.threads
  rcases Heap.record_allocateRecord.mp hr with hr | ⟨-, rfl⟩
  · exact .inl hr
  · exact .inr ⟨hcanon, hedges⟩

/-- What is made of listed nodes is listed. -/
theorem stocks_making : Making Stocks Listed where
  again hs := hs.stocked.stocks
  trans := .trans
  keeps hs hn := hs.listed hn
  inline {m n} hn := by
    refine listed_of_asAtom? ?_
    cases n with
    | atom a => cases hn
    | _ => rfl
  intern hs content :=
    ⟨hs.stocked.intern content, listed_atom.mpr ⟨by simp, (AtomTable.insert_id _ _).symm⟩⟩
  allocate hs hcanon hedges := ⟨hs.stocked.allocate hcanon hedges, listed_of_asAtom? rfl⟩

/-- A variable takes a listener. -/
theorem Stocked.park (hs : m.Stocked) {v : VarRef} {l : Listener} {parked : Bool} {heap : Heap}
    (ha : m.heap.addListener v l = .ok (parked, heap)) : m.Stocks { m with heap } := by
  refine hs.withHeap (Heap.grows_addListener ha) (Heap.records_addListener ha) fun hv => ?_
  rcases Heap.cell_addListener ha hv with hv | ⟨-, ls, -, -, he⟩
  · exact hv
  · cases he

/-- A variable is bound. The cells that are written hold the value, or unit. -/
theorem Stocked.bind (hs : m.Stocked) (hw : Waits m.heap m.scheduler.threads m.scheduler.spawned)
    {v : VarRef} {x : Node} (hx : m.Listed x) (hb : m.bind v x = .ok (.ok m')) : m.Stocks m' := by
  obtain ⟨target, d, hv, hd, ⟨-, rfl⟩ | ⟨hne, -⟩⟩ := bindWithin_cases hb
  · exact hs.stocks
  have hne' : m.heap.deref x ≠ .ok (.variable target) := by
    rw [hd]
    exact fun he => hne (Except.ok.inj he)
  obtain ⟨hgives, -⟩ := givesUnit_of_bind hw.nodup hv hne' hb
  obtain ⟨ids, hcasc, -⟩ := cascade_of_bind hw.nodup hb
  obtain ⟨ls, hcell⟩ := Heap.cell_of_deref hv
  have hatoms : m'.atoms = m.atoms := by rw [hcasc.rest]
  refine hs.extend (continues_of_bindWithin hb) (hatoms ▸ hs.nodup)
    (fun hr => .inl (by rwa [hcasc.record] at hr)) (fun hw' => ?_) ?_ fun t ht => ?_
  · rcases hgives _ _ hw' with hw' | ⟨-, -, hunit⟩
    · rw [withBound, Heap.cell_setCell (Heap.lt_of_cell hcell)] at hw'
      split at hw'
      · cases hw'
        exact .inr hx
      · exact .inl hw'
    · cases hunit
      exact .inr (listed_of_asAtom? rfl)
  · rw [hcasc.rest]
    exact hs.roots
  · rw [hcasc.threads] at ht
    obtain ⟨u, hu, rfl⟩ := List.mem_map.mp ht
    exact (hs.threads u hu).wakeIf ids

/-! ### What an exception mentions -/

/-- The two records of an exception can be read back. -/
theorem records_newException (m : Machine) (kind : String) (arguments : List Node) :
    ∃ detail outer : RecordRef, (m.newException kind arguments).1 = .record outer ∧
      (m.newException kind arguments).2.heap.record outer =
        .ok (.ofSorted (.atom ⟨m.atoms.id, "error"⟩)
          [(.int 1, .record detail), (.literal (.atom ⟨m.atoms.id, "debug"⟩), .unit)]) ∧
      (m.newException kind arguments).2.heap.record detail =
        .ok ⟨.atom ⟨m.atoms.id, "kernel"⟩, .tuple, .atom ⟨m.atoms.id, kind⟩ :: arguments⟩ := by
  simp only [newException, exceptionDetail, allocate, AtomTable.intern_eq, AtomTable.insert_id]
  -- the detail is allocated first, and stays where it is
  have hdetail := Heap.record_allocateRecord_self m.heap
    ⟨.atom ⟨m.atoms.id, "kernel"⟩, .tuple, .atom ⟨m.atoms.id, kind⟩ :: arguments⟩
  exact ⟨_, _, rfl, Heap.record_allocateRecord_self _ _, Heap.record_allocateRecord_of_ok hdetail _⟩

theorem contents_newException (m : Machine) (kind : String) (arguments : List Node) :
    (m.newException kind arguments).2.atoms =
      (((m.atoms.insert "kernel").insert kind).insert "error").insert "debug" := by
  simp only [newException, exceptionDetail, allocate, AtomTable.intern_eq]

/-- An exception mentions its arguments. -/
theorem parts_newException {kind : String} {arguments : List Node} {n : Node}
    (hn : n ∈ .atom ⟨m.atoms.id, "kernel"⟩ :: .atom ⟨m.atoms.id, kind⟩ :: arguments) :
    (m.newException kind arguments).2.heap.Parts (m.newException kind arguments).1 n := by
  obtain ⟨detail, outer, he, houter, hdetail⟩ := m.records_newException kind arguments
  rw [he]
  have hmem : .record detail ∈ (Record.ofSorted (.atom ⟨m.atoms.id, "error"⟩)
      [(.int 1, .record detail), (.literal (.atom ⟨m.atoms.id, "debug"⟩), .unit)]).edges :=
    Heap.field_mem_edges (List.mem_cons_self ..)
  have hin : n ∈ (⟨.atom ⟨m.atoms.id, "kernel"⟩, .tuple, .atom ⟨m.atoms.id, kind⟩ :: arguments⟩ :
      Record).edges := by
    rcases List.mem_cons.mp hn with rfl | hn
    · exact Heap.label_mem_edges _
    · exact Heap.field_mem_edges hn
  exact .tail (.single ⟨outer, _, rfl, houter, hmem⟩) ⟨detail, _, rfl, hdetail, hin⟩

/-- What an exception adds to the table, it mentions. -/
theorem mentions_newException {kind : String} {arguments : List Node} {content : String}
    (hc : content ∈ (m.newException kind arguments).2.atoms.contents) :
    content ∈ m.atoms.contents ∨ (m.newException kind arguments).2.heap.Mentions
      (m.newException kind arguments).1 content := by
  obtain ⟨detail, outer, he, houter, -⟩ := m.records_newException kind arguments
  have hpart : ∀ {a : Atom}, .atom a ∈ (Record.ofSorted (.atom ⟨m.atoms.id, "error"⟩)
      [(.int 1, .record detail), (.literal (.atom ⟨m.atoms.id, "debug"⟩), .unit)]).edges →
      (m.newException kind arguments).2.heap.Mentions (m.newException kind arguments).1 a.content :=
    fun ha => ⟨_, he ▸ .single ⟨outer, _, rfl, houter, ha⟩, rfl⟩
  rw [contents_newException] at hc
  simp only [AtomTable.mem_contents_insert] at hc
  rcases hc with rfl | rfl | rfl | rfl | hc
  · exact .inr (hpart (a := ⟨m.atoms.id, "debug"⟩) (by simp [Record.edges, Record.ofSorted,
      countFrom, Feature.toNode, Literal.toNode]))
  · exact .inr (hpart (a := ⟨m.atoms.id, "error"⟩) (Heap.label_mem_edges _))
  · exact .inr ⟨_, parts_newException (List.mem_cons_of_mem _ (List.mem_cons_self ..)), rfl⟩
  · exact .inr ⟨_, parts_newException (List.mem_cons_self ..), rfl⟩
  · exact .inl hc

theorem mentions_raiseTypeError {expected content : String} {value e : Node}
    (hr : m.raiseTypeError expected value = (.raise e, m')) (hc : content ∈ m'.atoms.contents) :
    content ∈ m.atoms.contents ∨ m'.heap.Mentions e content := by
  rw [raiseTypeError_eq] at hr
  cases hr
  rcases mentions_newException hc with hc | hc
  · rcases (AtomTable.mem_contents_insert _ _ _).mp hc with rfl | hc
    · refine .inr ⟨⟨m.atoms.id, content⟩, parts_newException ?_, rfl⟩
      exact List.mem_cons_of_mem _ (List.mem_cons_of_mem _ (List.mem_cons_self ..))
    · exact .inl hc
  · exact .inr hc

/-! ### Calls -/

/-- What is true of a computation that starts from a machine, if it ends with an outcome: the later
    machine is stocked, the nodes given out are listed, and what is new in the table is mentioned by
    an exception. -/
def Issues (m : Machine) (x : Except Fault (Outcome × Machine)) : Prop :=
  ∀ o m', x = .ok (o, m') → m.Stocks m' ∧ (∀ n ∈ o.nodes, m'.Listed n) ∧
    ∀ content ∈ m'.atoms.contents,
      content ∈ m.atoms.contents ∨ ∃ e, o = .raise e ∧ m'.heap.Mentions e content

/-- A step that leaves the table issues what is listed. -/
theorem Stocks.issues {o : Outcome} (hs : m.Stocks m') (hatoms : m'.atoms = m.atoms)
    (ho : ∀ n ∈ o.nodes, m'.Listed n) : m.Issues (.ok (o, m')) := by
  intro o' m'' he
  cases he
  exact ⟨hs, ho, fun content hc => .inl (hatoms ▸ hc)⟩

theorem Stocked.issues_wait (hs : m.Stocked)
    (hw : Waits m.heap m.scheduler.threads m.scheduler.spawned) {vs : List VarRef} (hne : vs ≠ [])
    (hvs : ∀ v ∈ vs, m.heap.deref (.variable v) = .ok (.variable v)) :
    m.Issues (do let (v, m) ← m.waitForAny vs; return (.suspend v, m)) := by
  have hlisted : ∀ {m' : Machine} {v : VarRef}, ∀ n ∈ (Outcome.suspend v).nodes, m'.Listed n := by
    intro m' v n hn
    rw [List.mem_singleton.mp hn]
    exact listed_of_asAtom? rfl
  obtain ⟨c, m', hwait, ⟨rfl, -⟩ | ⟨heap, rfl, hg⟩⟩ :=
    waitForAny_completes hw.steady hne fun v hv => Heap.cell_of_deref (hvs v hv)
  · rw [hwait]
    exact hs.stocks.issues rfl hlisted
  · rw [hwait]
    exact (hs.withHeap hg.grows hg.records hg.bound_before).issues rfl hlisted

/-- A call on listed nodes issues listed nodes, whatever the builtin. -/
theorem Stocked.discipline (hs : m.Stocked)
    (hw : Waits m.heap m.scheduler.threads m.scheduler.spawned) (b : Builtin) :
    m.Discipline b m.Listed m.Issues where
  canonical := hs.canonical
  int _ := listed_of_asAtom? rfl
  bool _ := listed_of_asAtom? rfl
  -- what a call reads is listed
  deref hn next := by
    intro o m' hx
    obtain ⟨d, hd, hx⟩ := bind_eq_ok.mp hx
    exact next d hd (hs.listed_deref hn hd) o m' hx
  record hn next := by
    intro o m' hx
    obtain ⟨r, hr, hx⟩ := bind_eq_ok.mp hx
    exact next r hr (hs.edges hr) o m' hx
  equals _ _ next := by
    intro o m' hx
    obtain ⟨same, -, hx⟩ := bind_eq_ok.mp hx
    exact next same o m' hx
  proceed hr := hs.stocks.issues rfl hr
  suspend _ hv := hs.stocks.issues rfl fun n hn => by rw [List.mem_singleton.mp hn]; exact hv
  -- an exception brings the atoms of its texts into the table, and mentions them
  raise kind arguments ha := by
    intro o m' he
    cases he
    obtain ⟨hs', hl⟩ := stocks_making.newException hs.stocks kind ha
    refine ⟨hs', fun n hn => by rw [List.mem_singleton.mp hn]; exact hl, fun content hc => ?_⟩
    exact (mentions_newException hc).imp_right fun hm => ⟨_, rfl, hm⟩
  typeError expected n hn := by
    intro o m' he
    obtain ⟨e, m₁, hr, hs', hl⟩ := stocks_making.raiseTypeError hs.stocks expected hn
    rw [hr] at he
    cases he
    refine ⟨hs', fun n hn => by rw [List.mem_singleton.mp hn]; exact hl, fun content hc => ?_⟩
    exact (mentions_raiseTypeError hr hc).imp_right fun hm => ⟨_, rfl, hm⟩
  -- a bind makes no atom
  bind _ v x _ _ hx := by
    intro o m' he
    obtain ⟨bound, hb, he⟩ := bind_eq_ok.mp he
    cases bound with
    | error e => cases he
    | ok m₁ =>
      cases he
      have hatoms : m'.atoms = m.atoms := by
        obtain ⟨ids, hcasc, -⟩ := cascade_of_bind hw.nodup hb
        rw [hcasc.rest]
      exact (hs.bind hw hx hb).issues hatoms (o := .proceed []) (fun _ hn => nomatch hn) _ _ rfl
  wait _ _ hne hvs := hs.issues_wait hw hne fun v hv => (hvs v hv).2
  shows _ n _ := by
    intro o m' he
    obtain ⟨text, -, he⟩ := bind_eq_ok.mp he
    cases he
    exact ⟨hs.of_eq rfl rfl rfl hs.roots hs.threads, nofun, fun _ hc => .inl hc⟩

theorem Stocked.call (hs : m.Stocked)
    (hw : Waits m.heap m.scheduler.threads m.scheduler.spawned) {b : Builtin} {operands : List Node}
    (ho : ∀ n ∈ operands, m.Listed n) : m.Issues (m.call b operands) := by
  intro o m' hc
  exact (hs.discipline hw b).call (length_of_call hc) ho o m' hc

/-! ### Turns -/

/-- A turn leaves the machine stocked. What is new in the table is mentioned by the exception of the
    thread. -/
theorem Stocked.turn {n : Nat} {t t' : Thread} (hs : m.Stocked)
    (hw : Waits m.heap m.scheduler.threads m.scheduler.spawned)
    (hrun : Waits.Running m.scheduler.threads t.id) (ht : t.Within m.Listed)
    (hturn : turn n m t = .ok (m', t')) :
    m.Stocks m' ∧ t'.Within m'.Listed ∧ ∀ content ∈ m'.atoms.contents,
      content ∈ m.atoms.contents ∨ ∃ e, t'.state = .failed e ∧ m'.heap.Mentions e content := by
  induction n generalizing m t with
  | zero =>
    cases hturn
    exact ⟨hs.stocks, ht, fun _ hc => .inl hc⟩
  | succ n ih =>
    rw [Machine.turn] at hturn
    cases hi : t.code[t.pc]? with
    | none =>
      rw [hi] at hturn
      cases hturn
      exact ⟨hs.stocks, ht, fun _ hc => .inl hc⟩
    | some i =>
      rw [hi] at hturn
      obtain ⟨operands, hops, hturn⟩ := bind_eq_ok.mp hturn
      obtain ⟨⟨outcome, m₁⟩, hcall, hturn⟩ := bind_eq_ok.mp hturn
      obtain ⟨operands', hops', -, hlisted⟩ := ht.operands (List.mem_of_getElem? hi)
      rw [hops] at hops'
      cases hops'
      obtain ⟨hs₁, hnodes, hnew⟩ := hs.call hw hlisted _ _ hcall
      obtain ⟨hw₁, hrun₁⟩ := hw.running_changes hrun (does_of_call hw.balanced hcall).changes
      have ht₁ : t.Within m₁.Listed := ht.mono fun _ hn => hs₁.listed hn
      -- only a call that raises an exception adds to the table
      have hold : (∀ e, outcome ≠ .raise e) → ∀ content ∈ m₁.atoms.contents,
          content ∈ m.atoms.contents := by
        intro hne content hc
        rcases hnew content hc with hc | ⟨e, he, -⟩
        · exact hc
        · exact absurd he (hne e)
      cases outcome with
      | proceed results =>
        obtain ⟨hs', ht', hnew'⟩ := ih (t := t.advance i.outputs results) hs₁.stocked hw₁ hrun₁
          (ht₁.advance i.outputs hnodes) hturn
        have hold := hold (by simp)
        exact ⟨hs₁.trans hs', ht', fun content hc => (hnew' content hc).imp_left (hold content)⟩
      | raise exception =>
        cases hturn
        have hl := hnodes _ (List.mem_singleton.mpr rfl)
        refine ⟨hs₁, ht₁.state fun e he => by cases he; exact hl, fun content hc => ?_⟩
        rcases hnew content hc with hc | ⟨e, he, hm⟩
        · exact .inl hc
        · cases he
          exact .inr ⟨_, rfl, hm⟩
      | suspend v =>
        have hold := hold (by simp)
        obtain ⟨⟨parked, heap⟩, ha, hturn⟩ := bind_eq_ok.mp hturn
        have hpark := hs₁.stocked.park ha
        have ht₂ := ht₁.mono fun _ hn => hpark.listed hn
        cases parked with
        | true =>
          cases hturn
          exact ⟨hs₁.trans hpark, ht₂.state (by simp), fun content hc => .inl (hold content hc)⟩
        | false =>
          rcases Heap.addListener_cases ha with ⟨hf, -⟩ | ⟨-, rfl, -⟩
          · cases hf
          · obtain ⟨hs', ht', hnew'⟩ := ih hs₁.stocked hw₁ hrun₁ ht₁ hturn
            exact ⟨hs₁.trans hs', ht', fun content hc => (hnew' content hc).imp_left (hold content)⟩

theorem Stocked.putBack (hs : m.Stocked) {t : Thread} (ht : t.Within m.Listed) :
    m.Stocks (m.putBack t) := by
  have hrest : (m.putBack t).id = m.id ∧ (m.putBack t).atoms = m.atoms ∧
      (m.putBack t).roots = m.roots := by
    unfold Machine.putBack
    split
    · split <;> exact ⟨rfl, rfl, rfl⟩
    · exact ⟨rfl, rfl, rfl⟩
  obtain ⟨hid, hatoms, hroots⟩ := hrest
  refine hs.of_eq hid hatoms (putBack_heap m t) (hroots ▸ hs.roots) fun u hu => ?_
  rw [putBack_threads] at hu
  rcases Waits.mem_update hu with rfl | ⟨hu, -⟩
  · exact ht.ended
  · exact hs.threads u hu

/-- The turn of the next thread, put back after it. -/
theorem Stocked.slice {n : Nat} {s : Scheduler} {t t' : Thread} {after : Machine} (hs : m.Stocked)
    (hw : Waits m.heap m.scheduler.threads m.scheduler.spawned)
    (hnext : m.scheduler.next? = (some t, s))
    (hturn : Machine.turn n { m with scheduler := s } t = .ok (after, t')) :
    m.Stocks (after.putBack t') ∧ t'.Within (after.putBack t').Listed ∧
      ∀ content ∈ (after.putBack t').atoms.contents, content ∈ m.atoms.contents ∨
        ∃ e, t'.state = .failed e ∧ (after.putBack t').heap.Mentions e content := by
  obtain ⟨hthreads, hspawned, hfound⟩ := nextFrom_cases hnext
  obtain ⟨hmem, hstate⟩ := hfound t rfl
  have htaken : m.Stocks { m with scheduler := s } :=
    hs.of_eq rfl rfl rfl hs.roots fun u hu => hs.threads u (hthreads ▸ hu)
  rw [← hthreads, ← hspawned] at hw
  rw [← hthreads] at hmem
  obtain ⟨hs', ht', hnew⟩ := htaken.stocked.turn (m := { m with scheduler := s }) hw
    ⟨t, hmem, rfl, hstate⟩ (htaken.stocked.threads t hmem) hturn
  have hput := hs'.stocked.putBack ht'
  have hatoms : (after.putBack t').atoms = after.atoms := by
    unfold Machine.putBack
    split
    · split <;> rfl
    · rfl
  refine ⟨(htaken.trans hs').trans hput, ht'.mono fun _ hn => hput.listed hn, fun content hc => ?_⟩
  rw [hatoms] at hc
  rw [putBack_heap]
  exact hnew content hc

/-! ### Collections -/

/-- The table after a collection holds the contents of the atoms that were alive, each of them
    once. -/
theorem contents_collect (hc : m.collect = .ok m') :
    m'.atoms.contents.Nodup ∧
      ∀ content, content ∈ m'.atoms.contents ↔ ∃ a, m.Live (.atom a) ∧ a.content = content := by
  obtain ⟨φ, hr⟩ := relocation_of_collect hc
  have hback : ∀ a, m.Live (.atom a) → a.content ∈ m'.atoms.contents := fun a ha =>
    (AtomTable.find?_eq_some_iff.mp (hr.atom ha).2).1
  obtain ⟨s, hs, hc⟩ := bind_eq_ok.mp (copyLive_of_collect hc)
  obtain ⟨heap, -, hc⟩ := bind_eq_ok.mp hc
  cases hc
  obtain ⟨hnodup, hfrom⟩ :=
    Survey.contents_walk hs (Survey.found_initial _ _ _) (List.nodup_nil)
  refine ⟨hnodup, fun content => ⟨fun hc => ?_, ?_⟩⟩
  · exact (hfrom content hc).resolve_left List.not_mem_nil
  · rintro ⟨a, ha, rfl⟩
    exact hback a ha

/-- What is alive in a stocked machine is listed. -/
theorem Stocked.listed_live (hs : m.Stocked) {n : Node} (hn : m.Live n) : m.Listed n := by
  unfold Live at hn
  induction hn with
  | start hn =>
    rcases List.mem_append.mp hn with hn | hn
    · exact hs.roots _ hn
    · obtain ⟨t, ht, hn⟩ := List.mem_flatMap.mp hn
      rcases Thread.mem_nodes.mp hn with hn | ⟨v, -, rfl⟩ | he
      · exact (hs.threads t ht).registers _ hn
      · exact listed_of_asAtom? rfl
      · exact (hs.threads t ht).exception _ he
  | edge _ hr hn => exact hs.edges hr _ hn
  | value _ hv => exact hs.values hv
  | control => exact listed_of_asAtom? rfl

/-- What is alive is moved to a listed node. -/
theorem Relocation.listed_image {φ : Node → Node} (hr : Relocation m m' φ) {n : Node}
    (hlive : m.Live n) : m'.Listed (φ n) := by
  obtain ⟨d, hd, -⟩ := hr.inRange hlive
  have hld : m.Live d := hlive.deref hd
  rw [hr.deref hlive hd]
  cases d with
  | atom a =>
    obtain ⟨hφ, hfind⟩ := hr.atom hld
    rw [hφ]
    rintro b hb
    cases hb
    exact hfind
  | _ =>
    have hkind := hr.kind hld (Heap.deref_deref hd)
    refine listed_of_asAtom? ?_
    revert hkind
    cases φ _ <;> simp [Node.kind, Node.asAtom?]

/-- A collection leaves the machine stocked, whatever was in it before. -/
theorem stocked_collect (hcanon : m.heap.Canonical) (htable : m.atoms.id.owner = m.id)
    (hcode : ∀ t ∈ m.scheduler.threads, t.Within fun _ => True) (hc : m.collect = .ok m') :
    m'.Stocked := by
  obtain ⟨φ, hr⟩ := relocation_of_collect hc
  refine ⟨canonical_collect hcanon hc, ?_, (contents_collect hc).1, fun hr' n' hn' => ?_,
    fun hv => ?_, fun n' hn' => ?_, fun t' ht' => ?_⟩
  · rw [hr.table, hr.rest.1]
    exact htable
  · obtain ⟨ref, r, hlive, href, -, him⟩ := hr.record_before hr'
    obtain ⟨n, hn, rfl⟩ := him.mem_edges hn'
    exact hr.listed_image (.edge hlive href hn)
  · -- no variable of the new heap is bound
    obtain ⟨v, ls, -, -, -, he⟩ := hr.cell_before hv
    cases he
  · rw [hr.roots] at hn'
    obtain ⟨n, hn, rfl⟩ := List.mem_map.mp hn'
    exact hr.listed_image (.start (List.mem_append_left _ hn))
  · rw [hr.threads] at ht'
    obtain ⟨t, ht, rfl⟩ := List.mem_map.mp ht'
    exact (hcode t ht).relocate (fun n hn _ => hr.listed_image (live_register ht hn))
      fun e he _ => hr.listed_image (live_failed ht he)

theorem Stocked.collect (hs : m.Stocked) (hc : m.collect = .ok m') : m'.Stocked :=
  stocked_collect hs.canonical hs.table (fun t ht => (hs.threads t ht).mono fun _ _ => trivial) hc

end Machine

end Dataflow
