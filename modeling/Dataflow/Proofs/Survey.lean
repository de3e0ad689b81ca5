import Mathlib.Algebra.GroupWithZero.Nat
import Dataflow.Collection
import Dataflow.Proofs.Growth

/-! # Surveys

  A collection builds the new heap while it goes through the old one. A *survey* goes through the
  old heap in the same order and builds nothing: it only lists the records and the unbound
  variables in the order in which they are met. The places in the new heap are the places in
  these lists.

  A survey walks depth first through everything that is reachable from some nodes, with a list
  of pending nodes. `Survey.Found` is the invariant of the walk: what has been found is
  reachable, and everything that it mentions has been found or is pending. At the end nothing is
  pending, so what was found is closed.

  The walk ends: each record and each variable is entered once, and what it mentions is paid for
  by `Survey.edgeCount`.
-/

namespace Dataflow

/-! ### Reachability -/

/-- What can be reached from some nodes: through records, through bound variables, and from
    unbound variables to the controls that listen to them. -/
inductive Heap.Reaches (h : Heap) (start : List Node) : Node → Prop where
  | start {n : Node} : n ∈ start → Reaches h start n
  | edge {ref : RecordRef} {r : Record} {n : Node} : Reaches h start (.record ref) →
      h.record ref = .ok r → n ∈ r.edges → Reaches h start n
  | value {v : VarRef} {n : Node} : Reaches h start (.variable v) →
      h.cell v = .ok (.bound n) → Reaches h start n
  | control {v c : VarRef} {ls : List Listener} : Reaches h start (.variable v) →
      h.cell v = .ok (.unbound ls) → .control c ∈ ls → Reaches h start (.variable c)

/-- Dereferencing stays within what is reachable. -/
theorem Heap.Reaches.deref {h : Heap} {start : List Node} {n d : Node} (hn : h.Reaches start n)
    (hd : h.deref n = .ok d) : h.Reaches start d := by
  revert hn
  refine Heap.deref_induct (motive := fun n d => h.Reaches start n → h.Reaches start d) ?_ ?_ ?_ hd
  · intro n _ hn
    exact hn
  · intro v ls _ hn
    exact hn
  · intro v x d hc _ ih hn
    exact ih (.value hn hc)

/-- A reference lies in the heap. Everything else does, too. -/
def Heap.InRange (h : Heap) : Node → Prop
  | .record ref => h.containsRecord ref = true
  | .variable v => h.containsVariable v = true
  | _ => True

instance (h : Heap) : (n : Node) → Decidable (h.InRange n)
  | .record ref => inferInstanceAs (Decidable (h.containsRecord ref = true))
  | .variable v => inferInstanceAs (Decidable (h.containsVariable v = true))
  | .atom _ | .int _ | .float _ | .bool _ | .unit => .isTrue trivial

theorem Heap.record_of_inRange {h : Heap} {ref : RecordRef} (hr : h.InRange (.record ref)) :
    ∃ r, h.record ref = .ok r := by
  have hlt : ref.index < h.records.size := by simpa [InRange, containsRecord] using hr
  exact ⟨h.records[ref.index], record_eq_ok_iff.mpr (by simp [hlt])⟩

theorem Heap.cell_of_inRange {h : Heap} {v : VarRef} (hv : h.InRange (.variable v)) :
    ∃ c, h.cell v = .ok c := by
  have hlt : v.index < h.cells.size := by simpa [InRange, containsVariable] using hv
  exact ⟨h.cells[v.index], cell_eq_ok_iff.mpr (by simp [hlt])⟩

theorem Heap.lt_recordCount_iff {h : Heap} {i : Nat} :
    i < h.recordCount ↔ ∃ r, h.record ⟨i⟩ = .ok r := by
  simp [recordCount, record_eq_ok_iff, Array.getElem?_eq_some_iff]

theorem Heap.lt_variableCount_iff {h : Heap} {i : Nat} :
    i < h.variableCount ↔ ∃ c, h.cell ⟨i⟩ = .ok c := by
  simp [variableCount, cell_eq_ok_iff, Array.getElem?_eq_some_iff]

theorem Heap.inRange_of_record {h : Heap} {ref : RecordRef} {r : Record}
    (hr : h.record ref = .ok r) : h.InRange (.record ref) := by
  have hlt := (Array.getElem?_eq_some_iff.mp (record_eq_ok_iff.mp hr)).1
  simpa [InRange, containsRecord] using hlt

theorem Heap.inRange_of_cell {h : Heap} {v : VarRef} {c : Cell} (hc : h.cell v = .ok c) :
    h.InRange (.variable v) := by
  simpa [InRange, containsVariable] using lt_of_cell hc

/-- In a grounded heap in which nothing dangles everything that is reachable stands for something. -/
theorem Heap.deref_of_inRange {h : Heap} {start : List Node} (hground : h.Grounded)
    (hin : ∀ {n : Node}, h.Reaches start n → h.InRange n) {n : Node} (hn : h.Reaches start n) :
    ∃ d, h.deref n = .ok d ∧ h.InRange d := by
  obtain ⟨d, hd⟩ := hground.deref (n := n) fun v e => Heap.cell_of_inRange (hin (e ▸ hn))
  exact ⟨d, hd, hin (hn.deref hd)⟩

/-- The nodes that an unbound variable keeps alive: the control variables that listen to it. -/
def controls (listeners : List Listener) : List Node :=
  (listeners.filterMap Listener.control?).map Node.variable

/-- The nodes that a variable keeps alive while it is unbound. -/
def cellControls : Cell → List Node
  | .unbound listeners => controls listeners
  | .bound _ => []

theorem mem_controls {ls : List Listener} {n : Node} :
    n ∈ controls ls ↔ ∃ c, .control c ∈ ls ∧ n = .variable c := by
  unfold controls
  constructor
  · intro hn
    obtain ⟨c, hc, rfl⟩ := List.mem_map.mp hn
    obtain ⟨l, hl, he⟩ := List.mem_filterMap.mp hc
    cases l with
    | thread id => cases he
    | control c' => cases he; exact ⟨c, hl, rfl⟩
  · rintro ⟨c, hc, rfl⟩
    exact List.mem_map.mpr ⟨c, List.mem_filterMap.mpr ⟨_, hc, rfl⟩, rfl⟩

/-! ### The walk -/

/-- What a walk through a heap has met so far: the records and the unbound variables in the order
    in which they were met, and the contents of the atoms. -/
structure Survey where
  atoms : AtomTable
  records : List RecordRef := []
  vars : List VarRef := []
  deriving DecidableEq

namespace Survey

/-- Walks through everything reachable from the nodes, the first one first. -/
def walk (h : Heap) : Nat → List Node → Survey → Except Fault Survey
  | _, [], s => .ok s
  | 0, _ :: _, _ => .error .endless
  | n + 1, node :: rest, s => do
    match ← h.deref node with
    | .atom a => walk h n rest { s with atoms := s.atoms.insert a.content }
    | .record ref =>
      if ref ∈ s.records then walk h n rest s
      else
        -- the record is listed before its parts are visited, so cycles end here
        let r ← h.record ref
        walk h n (r.edges ++ rest) { s with records := s.records ++ [ref] }
    | .variable v =>
      if v ∈ s.vars then walk h n rest s
      else
        let listeners ← h.listeners v
        walk h n (controls listeners ++ rest) { s with vars := s.vars ++ [v] }
    | _ => walk h n rest s

/-- The number of nodes that records and variables of a heap hold: a walk enters each of them
    once, so it takes up at most this many nodes besides those that it starts from. -/
def edgeCount (h : Heap) : Nat :=
  (h.records.toList.map fun r => r.edges.length).foldr (· + ·) 0 +
    (h.cells.toList.map fun c => (cellControls c).length).foldr (· + ·) 0

/-- Everything reachable from the nodes, with its atoms in the given table. -/
def ofNodes (h : Heap) (atoms : AtomTable) (nodes : List Node) : Except Fault Survey :=
  walk h (nodes.length + edgeCount h) nodes { atoms }

variable {h : Heap}

/-! ### One step of the walk -/

/-- What the walk does with a dereferenced node: the nodes to be visited next, and the survey
    with the node in it. -/
def visit (h : Heap) (s : Survey) : Node → Except Fault (List Node × Survey)
  | .atom a => .ok ([], { s with atoms := s.atoms.insert a.content })
  | .record ref =>
    if ref ∈ s.records then .ok ([], s)
    else do return ((← h.record ref).edges, { s with records := s.records ++ [ref] })
  | .variable v =>
    if v ∈ s.vars then .ok ([], s)
    else do return (controls (← h.listeners v), { s with vars := s.vars ++ [v] })
  | _ => .ok ([], s)

theorem walk_cons (h : Heap) (n : Nat) (node : Node) (rest : List Node) (s : Survey) :
    walk h (n + 1) (node :: rest) s = (do
      let (new, s') ← s.visit h (← h.deref node)
      walk h n (new ++ rest) s') := by
  rw [walk]
  cases h.deref node with
  | error f => rfl
  | ok d =>
    cases d with
    | record ref =>
      by_cases hm : ref ∈ s.records
      · simp [visit, hm]
      · simp only [visit, hm, ↓reduceIte, ok_bind]
        cases h.record ref <;> rfl
    | «variable» v =>
      by_cases hm : v ∈ s.vars
      · simp [visit, hm]
      · simp only [visit, hm, ↓reduceIte, ok_bind]
        cases h.listeners v <;> rfl
    | _ => rfl

/-- The survey has found what a dereferenced node stands for. -/
def Holds (s : Survey) : Node → Prop
  | .atom a => a.content ∈ s.atoms.contents
  | .record ref => ref ∈ s.records
  | .variable v => v ∈ s.vars
  | _ => True

/-- The survey has found what a node stands for. -/
def Covers (s : Survey) (h : Heap) (n : Node) : Prop := ∃ d, h.deref n = .ok d ∧ s.Holds d

/-- A survey that goes on from another one has found as much. -/
structure Continues (s s' : Survey) : Prop where
  atoms : ∀ {content : String}, content ∈ s.atoms.contents → content ∈ s'.atoms.contents
  records : ∀ {ref : RecordRef}, ref ∈ s.records → ref ∈ s'.records
  vars : ∀ {v : VarRef}, v ∈ s.vars → v ∈ s'.vars
  table : s'.atoms.id = s.atoms.id

theorem Continues.covers {s s' : Survey} (hc : s.Continues s') {n : Node} (hn : s.Covers h n) :
    s'.Covers h n := by
  obtain ⟨d, hd, hs⟩ := hn
  refine ⟨d, hd, ?_⟩
  cases d with
  | atom a => exact hc.atoms hs
  | record ref => exact hc.records hs
  | «variable» v => exact hc.vars hs
  | _ => trivial

theorem listeners_of_unbound {v : VarRef} {ls : List Listener} (hc : h.cell v = .ok (.unbound ls)) :
    h.listeners v = .ok ls := by
  simp [Heap.listeners, hc, pure, Except.pure]

/-- All that visiting a dereferenced node can do. -/
theorem visit_cases {s s' : Survey} {n d : Node} {new : List Node} (hd : h.deref n = .ok d)
    (hv : s.visit h d = .ok (new, s')) :
    new = [] ∧ s.Continues s' ∧ s'.records = s.records ∧ s'.vars = s.vars ∧ s'.Holds d ∨
    (∃ ref r, d = .record ref ∧ ref ∉ s.records ∧ h.record ref = .ok r ∧ new = r.edges ∧
      s' = { s with records := s.records ++ [ref] }) ∨
    (∃ v ls, d = .variable v ∧ v ∉ s.vars ∧ h.cell v = .ok (.unbound ls) ∧ new = controls ls ∧
      s' = { s with vars := s.vars ++ [v] }) := by
  -- the three ways: nothing is added to the lists, a record is, or a variable is
  have hself : s.Continues s := ⟨id, id, id, rfl⟩
  cases d with
  | atom a =>
    cases hv
    refine .inl ⟨rfl, ⟨?_, id, id, by simp⟩, rfl, rfl, by simp [Holds]⟩
    intro content hm
    simp [hm]
  | record ref =>
    by_cases hm : ref ∈ s.records
    · simp only [visit, hm, ↓reduceIte, Except.ok.injEq, Prod.mk.injEq] at hv
      obtain ⟨rfl, rfl⟩ := hv
      exact .inl ⟨rfl, hself, rfl, rfl, hm⟩
    · simp only [visit, hm, ↓reduceIte] at hv
      obtain ⟨r, hr, hv⟩ := bind_eq_ok.mp hv
      cases hv
      exact .inr (.inl ⟨ref, r, rfl, hm, hr, rfl, rfl⟩)
  | «variable» v =>
    by_cases hm : v ∈ s.vars
    · simp only [visit, hm, ↓reduceIte, Except.ok.injEq, Prod.mk.injEq] at hv
      obtain ⟨rfl, rfl⟩ := hv
      exact .inl ⟨rfl, hself, rfl, rfl, hm⟩
    · obtain ⟨ls, hc⟩ := Heap.cell_of_deref hd
      simp only [visit, hm, ↓reduceIte, listeners_of_unbound hc, ok_bind] at hv
      cases hv
      exact .inr (.inr ⟨v, ls, rfl, hm, hc, rfl, rfl⟩)
  | _ => cases hv; exact .inl ⟨rfl, hself, rfl, rfl, trivial⟩

/-! ### The invariant of the walk -/

/-- What holds of a walk from `start` with the nodes `pending` still to be visited. -/
structure Found (h : Heap) (start pending : List Node) (s : Survey) : Prop where
  /-- The first nodes have been found or are pending. -/
  first : ∀ n ∈ start, s.Covers h n ∨ n ∈ pending
  /-- So have the parts of the records found. -/
  record : ∀ ref ∈ s.records, ∃ r, h.record ref = .ok r ∧
    ∀ n ∈ r.edges, s.Covers h n ∨ n ∈ pending
  /-- The variables found are unbound, and so have the controls that listen to them. -/
  var : ∀ v ∈ s.vars, ∃ ls, h.cell v = .ok (.unbound ls) ∧
    ∀ n ∈ controls ls, s.Covers h n ∨ n ∈ pending
  /-- No record is found twice. -/
  records_nodup : s.records.Nodup
  /-- No variable is found twice. -/
  vars_nodup : s.vars.Nodup
  /-- What is pending is reachable. -/
  reached : ∀ n ∈ pending, h.Reaches start n
  /-- The records found are reachable. -/
  reached_record : ∀ ref ∈ s.records, h.Reaches start (.record ref)
  /-- The variables found are reachable. -/
  reached_var : ∀ v ∈ s.vars, h.Reaches start (.variable v)

theorem found_initial (h : Heap) (start : List Node) (atoms : AtomTable) :
    Found h start start { atoms } where
  first _ hn := .inr hn
  record := nofun
  var := nofun
  records_nodup := List.nodup_nil
  vars_nodup := List.nodup_nil
  reached _ hn := .start hn
  reached_record := nofun
  reached_var := nofun

/-- The step of the walk: what was pending has been found or still is pending. -/
theorem covers_or_pending {s s' : Survey} {node d n : Node} {new rest : List Node}
    (hd : h.deref node = .ok d) (hc : s.Continues s') (hself : s'.Holds d)
    (hn : s.Covers h n ∨ n ∈ node :: rest) : s'.Covers h n ∨ n ∈ new ++ rest := by
  rcases hn with hn | hn
  · exact .inl (hc.covers hn)
  · rcases List.mem_cons.mp hn with rfl | hn
    · exact .inl ⟨d, hd, hself⟩
    · exact .inr (List.mem_append_right _ hn)

/-- The invariant after a step that finds `d`: what is found in addition is `d`, and the nodes that
    it mentions are pending. -/
theorem Found.advance {s s' : Survey} {start rest new : List Node} {node d : Node}
    (hf : Found h start (node :: rest) s) (hd : h.deref node = .ok d) (hc : s.Continues s')
    (hself : s'.Holds d) (hnew : ∀ n ∈ new, h.Reaches start n)
    (hrecord : ∀ ref ∈ s'.records, ref ∈ s.records ∨
      d = .record ref ∧ ∃ r, h.record ref = .ok r ∧ r.edges ⊆ new)
    (hvar : ∀ v ∈ s'.vars, v ∈ s.vars ∨
      d = .variable v ∧ ∃ ls, h.cell v = .ok (.unbound ls) ∧ controls ls ⊆ new)
    (hrecords : s'.records.Nodup) (hvars : s'.vars.Nodup) : Found h start (new ++ rest) s' := by
  have hnode : h.Reaches start d := (hf.reached node (List.mem_cons_self ..)).deref hd
  -- what was found or pending still is
  have hkept : ∀ {n : Node}, s.Covers h n ∨ n ∈ node :: rest → s'.Covers h n ∨ n ∈ new ++ rest :=
    covers_or_pending hd hc hself
  refine
    { first := fun n hn => hkept (hf.first n hn), record := ?_, var := ?_
      records_nodup := hrecords, vars_nodup := hvars, reached := ?_, reached_record := ?_
      reached_var := ?_ }
  · intro ref href
    rcases hrecord ref href with href | ⟨-, r, hr, hedges⟩
    · obtain ⟨r, hr, hedges⟩ := hf.record ref href
      exact ⟨r, hr, fun n hn => hkept (hedges n hn)⟩
    · exact ⟨r, hr, fun n hn => .inr (List.mem_append_left _ (hedges hn))⟩
  · intro v hv
    rcases hvar v hv with hv | ⟨-, ls, hcell, hctrl⟩
    · obtain ⟨ls, hcell, hctrl⟩ := hf.var v hv
      exact ⟨ls, hcell, fun n hn => hkept (hctrl n hn)⟩
    · exact ⟨ls, hcell, fun n hn => .inr (List.mem_append_left _ (hctrl hn))⟩
  · intro n hn
    rcases List.mem_append.mp hn with hn | hn
    · exact hnew n hn
    · exact hf.reached n (List.mem_cons_of_mem _ hn)
  · intro ref href
    rcases hrecord ref href with href | ⟨rfl, -⟩
    · exact hf.reached_record ref href
    · exact hnode
  · intro v hv
    rcases hvar v hv with hv | ⟨rfl, -⟩
    · exact hf.reached_var v hv
    · exact hnode

theorem found_visit {s s' : Survey} {start rest new : List Node} {node d : Node}
    (hf : Found h start (node :: rest) s) (hd : h.deref node = .ok d)
    (hv : s.visit h d = .ok (new, s')) :
    Found h start (new ++ rest) s' ∧ s.Continues s' := by
  have hnode : h.Reaches start d := (hf.reached node (List.mem_cons_self ..)).deref hd
  rcases visit_cases hd hv with ⟨rfl, hc, hrec, hvar, hself⟩ | ⟨ref, r, rfl, hm, hr, rfl, rfl⟩ |
    ⟨v, ls, rfl, hm, hcell, rfl, rfl⟩
  · -- nothing new
    exact ⟨hf.advance hd hc hself nofun (fun ref href => .inl (hrec ▸ href))
      (fun v hv => .inl (hvar ▸ hv)) (hrec ▸ hf.records_nodup) (hvar ▸ hf.vars_nodup), hc⟩
  · -- a record that was not met before
    have hc : s.Continues { s with records := s.records ++ [ref] } :=
      ⟨id, fun hx => List.mem_append_left _ hx, id, rfl⟩
    refine ⟨hf.advance hd hc (by simp [Holds]) (fun n hn => .edge hnode hr hn) ?_
      (fun v hv => .inl hv) ?_ hf.vars_nodup, hc⟩
    · intro ref' href'
      rcases List.mem_append.mp href' with href' | href'
      · exact .inl href'
      · obtain rfl := List.mem_singleton.mp href'
        exact .inr ⟨rfl, r, hr, fun _ hn => hn⟩
    · exact List.nodup_append_comm.mpr (List.nodup_cons.mpr ⟨hm, hf.records_nodup⟩)
  · -- an unbound variable that was not met before
    have hc : s.Continues { s with vars := s.vars ++ [v] } :=
      ⟨id, id, fun hx => List.mem_append_left _ hx, rfl⟩
    refine ⟨hf.advance hd hc (by simp [Holds]) ?_ (fun ref href => .inl href) ?_ hf.records_nodup
      ?_, hc⟩
    · intro n hn
      obtain ⟨c, hcl, rfl⟩ := mem_controls.mp hn
      exact .control hnode hcell hcl
    · intro w hw
      rcases List.mem_append.mp hw with hw | hw
      · exact .inl hw
      · obtain rfl := List.mem_singleton.mp hw
        exact .inr ⟨rfl, ls, hcell, fun _ hn => hn⟩
    · exact List.nodup_append_comm.mpr (List.nodup_cons.mpr ⟨hm, hf.vars_nodup⟩)

/-- What a walk that succeeds leaves: everything has been found, in a table of the same name. -/
theorem found_walk {n : Nat} {start pending : List Node} {s s' : Survey}
    (hw : walk h n pending s = .ok s') (hf : Found h start pending s) :
    Found h start [] s' ∧ s'.atoms.id = s.atoms.id := by
  -- by induction on the bound, with the invariant carried from one pending list to the next
  induction n generalizing pending s with
  | zero =>
    cases pending with
    | nil => simp only [walk, Except.ok.injEq] at hw; exact hw ▸ ⟨hf, rfl⟩
    | cons node rest => simp [walk] at hw
  | succ n ih =>
    cases pending with
    | nil => simp only [walk, Except.ok.injEq] at hw; exact hw ▸ ⟨hf, rfl⟩
    | cons node rest =>
      rw [walk_cons] at hw
      obtain ⟨d, hd, hw⟩ := bind_eq_ok.mp hw
      obtain ⟨⟨new, s₁⟩, hv, hw⟩ := bind_eq_ok.mp hw
      obtain ⟨hf₁, hc⟩ := found_visit hf hd hv
      obtain ⟨hf', hid⟩ := ih hw hf₁
      exact ⟨hf', hid.trans hc.table⟩

/-- Everything that is reachable has been found when nothing is pending. -/
theorem Found.covers {start : List Node} {s : Survey} (hf : Found h start [] s) {n : Node}
    (hn : h.Reaches start n) : s.Covers h n := by
  -- nothing is pending, so `Found` leaves covering alone
  have hdone : ∀ {n : Node}, s.Covers h n ∨ n ∈ [] → s.Covers h n := by
    intro n hn
    rcases hn with hn | hn
    · exact hn
    · cases hn
  induction hn with
  | start hn => exact hdone (hf.first _ hn)
  | @edge ref r n _ hr hn ih =>
    obtain ⟨d, hd, hs⟩ := ih
    rw [Heap.deref_of_value rfl] at hd
    cases hd
    obtain ⟨r', hr', hedges⟩ := hf.record ref hs
    rw [hr] at hr'
    cases hr'
    exact hdone (hedges n hn)
  | @value v n _ hc ih =>
    obtain ⟨d, hd, hs⟩ := ih
    exact ⟨d, by rwa [Heap.deref_bound hc] at hd, hs⟩
  | @control v c ls _ hc hl ih =>
    obtain ⟨d, hd, hs⟩ := ih
    rw [Heap.deref_unbound hc] at hd
    cases hd
    obtain ⟨ls', hc', hctrl⟩ := hf.var v hs
    rw [hc] at hc'
    cases hc'
    exact hdone (hctrl _ (mem_controls.mpr ⟨c, hl, rfl⟩))

/-! ### The walk ends -/

/-- Weights summed over distinct members of a list come to at most the sum over the list. -/
theorem sum_le_of_nodup_subset {α : Type} [DecidableEq α] (w : α → Nat) {xs ys : List α}
    (hnd : xs.Nodup) (hsub : xs ⊆ ys) : (xs.map w).sum ≤ (ys.map w).sum := by
  induction xs generalizing ys with
  | nil => simp
  | cons x xs ih =>
    obtain ⟨hx, hnd⟩ := List.nodup_cons.mp hnd
    have hxy : x ∈ ys := hsub (List.mem_cons_self ..)
    have hsub' : xs ⊆ ys.erase x := by
      intro y hy
      have hne : y ≠ x := fun e => hx (e ▸ hy)
      exact (List.mem_erase_of_ne hne).mpr (hsub (List.mem_cons_of_mem _ hy))
    -- the first member is weighed against its own occurrence in the longer list
    have hperm := ((List.perm_cons_erase hxy).map w).sum_nat
    have hle := ih hnd hsub'
    simp only [List.map_cons, List.sum_cons] at hperm ⊢
    omega

/-- The number of nodes that a record holds. -/
def recordWeight (h : Heap) (ref : RecordRef) : Nat :=
  match h.records[ref.index]? with
  | some r => r.edges.length
  | none => 0

/-- The number of controls that listen to a variable. -/
def varWeight (h : Heap) (v : VarRef) : Nat :=
  match h.cells[v.index]? with
  | some c => (cellControls c).length
  | none => 0

/-- The number of nodes that the records and variables found so far have made pending. -/
def spent (h : Heap) (s : Survey) : Nat :=
  (s.records.map (recordWeight h)).sum + (s.vars.map (varWeight h)).sum

theorem sum_range_eq {α β : Type} (xs : List α) (f : α → Nat) (mk : Nat → β) (w : β → Nat)
    (hw : ∀ i x, xs[i]? = some x → w (mk i) = f x) :
    (((List.range xs.length).map mk).map w).sum = (xs.map f).sum := by
  congr 1
  apply List.ext_getElem
  · simp
  · intro i h₁ h₂
    have hi : i < xs.length := by simpa using h₂
    simpa using hw i _ (List.getElem?_eq_getElem hi)

/-- What is found once is not paid for twice. -/
theorem spent_le {start pending : List Node} {s : Survey} (hf : Found h start pending s) :
    spent h s ≤ edgeCount h := by
  have hrec : (s.records.map (recordWeight h)).sum ≤
      (h.records.toList.map fun r => r.edges.length).sum := by
    rw [← sum_range_eq h.records.toList _ RecordRef.mk (recordWeight h)
      fun i r hi => by simp [recordWeight, show h.records[i]? = some r by simpa using hi]]
    refine sum_le_of_nodup_subset _ hf.records_nodup fun ref href => ?_
    obtain ⟨r, hr, -⟩ := hf.record ref href
    have hlt := (Array.getElem?_eq_some_iff.mp (Heap.record_eq_ok_iff.mp hr)).1
    exact List.mem_map.mpr ⟨ref.index, List.mem_range.mpr (by simpa using hlt), rfl⟩
  have hvar : (s.vars.map (varWeight h)).sum ≤
      (h.cells.toList.map fun c => (cellControls c).length).sum := by
    rw [← sum_range_eq h.cells.toList _ VarRef.mk (varWeight h)
      fun i c hi => by simp [varWeight, show h.cells[i]? = some c by simpa using hi]]
    refine sum_le_of_nodup_subset _ hf.vars_nodup fun v hv => ?_
    obtain ⟨ls, hc, -⟩ := hf.var v hv
    exact List.mem_map.mpr ⟨v.index, List.mem_range.mpr (by simpa using Heap.lt_of_cell hc), rfl⟩
  unfold spent edgeCount
  exact Nat.add_le_add hrec hvar

/-- Visiting a reachable node succeeds, and pays for what it makes pending. -/
theorem visit_ok {s : Survey} {n d : Node} (hd : h.deref n = .ok d) (hin : h.InRange d) :
    ∃ new s', s.visit h d = .ok (new, s') ∧ spent h s' = spent h s + new.length := by
  cases d with
  | record ref =>
    by_cases hm : ref ∈ s.records
    · exact ⟨[], s, by simp [visit, hm], rfl⟩
    · obtain ⟨r, hr⟩ := Heap.record_of_inRange hin
      refine ⟨r.edges, { s with records := s.records ++ [ref] }, ?_, ?_⟩
      · simp [visit, hm, hr, pure, Except.pure]
      · have hw : recordWeight h ref = r.edges.length := by
          simp [recordWeight, Heap.record_eq_ok_iff.mp hr]
        simp [spent, hw]
        omega
  | «variable» v =>
    by_cases hm : v ∈ s.vars
    · exact ⟨[], s, by simp [visit, hm], rfl⟩
    · obtain ⟨ls, hc⟩ := Heap.cell_of_deref hd
      refine ⟨controls ls, { s with vars := s.vars ++ [v] }, ?_, ?_⟩
      · simp [visit, hm, listeners_of_unbound hc, pure, Except.pure]
      · have hw : varWeight h v = (controls ls).length := by
          simp [varWeight, Heap.cell_eq_ok_iff.mp hc, cellControls]
        simp [spent, hw]
        omega
  | atom a => exact ⟨[], _, rfl, rfl⟩
  | _ => exact ⟨[], s, rfl, rfl⟩

/-- A walk over reachable nodes succeeds if nothing that is reachable dangles, and if its bound is at
    least what is pending and not paid for yet. -/
theorem walk_ok {n : Nat} {start pending : List Node} {s : Survey}
    (hin : ∀ {n : Node}, h.Reaches start n → ∃ d, h.deref n = .ok d ∧ h.InRange d)
    (hf : Found h start pending s) (hn : pending.length + edgeCount h ≤ n + spent h s) :
    ∃ s', walk h n pending s = .ok s' := by
  induction n generalizing pending s with
  | zero =>
    cases pending with
    | nil => exact ⟨s, by simp [walk]⟩
    | cons node rest =>
      -- a node is pending and no bound is left, though not all edges have been paid for
      have := spent_le hf
      simp only [List.length_cons] at hn
      omega
  | succ n ih =>
    cases pending with
    | nil => exact ⟨s, by simp [walk]⟩
    | cons node rest =>
      obtain ⟨d, hd, hind⟩ := hin (hf.reached node (List.mem_cons_self ..))
      obtain ⟨new, s₁, hv, hspent⟩ := visit_ok hd hind
      obtain ⟨hf₁, -⟩ := found_visit hf hd hv
      have hleft : (new ++ rest).length + edgeCount h ≤ n + spent h s₁ := by
        simp only [List.length_append, List.length_cons] at hn ⊢
        omega
      obtain ⟨s', hs'⟩ := ih hf₁ hleft
      exact ⟨s', by rw [walk_cons, hd, ok_bind, hv, ok_bind]; exact hs'⟩

/-- The survey of a heap in which nothing reachable dangles. -/
theorem ofNodes_ok {start : List Node} (atoms : AtomTable)
    (hin : ∀ {n : Node}, h.Reaches start n → ∃ d, h.deref n = .ok d ∧ h.InRange d) :
    ∃ s, ofNodes h atoms start = .ok s :=
  walk_ok hin (found_initial h start atoms) (by simp [spent])

/-- A walk that has ended is not changed by a greater bound. -/
theorem walk_mono {n k : Nat} (hnk : n ≤ k) {pending : List Node} {s s' : Survey}
    (hw : walk h n pending s = .ok s') : walk h k pending s = .ok s' := by
  induction n generalizing k pending s with
  | zero =>
    cases pending with
    | nil => simpa [walk] using hw
    | cons node rest => simp [walk] at hw
  | succ n ih =>
    cases pending with
    | nil => simpa [walk] using hw
    | cons node rest =>
      obtain ⟨k, rfl⟩ := Nat.exists_eq_add_one_of_ne_zero (show k ≠ 0 by omega)
      rw [walk_cons] at hw ⊢
      obtain ⟨d, hd, hw⟩ := bind_eq_ok.mp hw
      obtain ⟨⟨new, s₁⟩, hv, hw⟩ := bind_eq_ok.mp hw
      rw [hd, ok_bind, hv, ok_bind]
      exact ih (by omega) hw

/-- The survey is what any walk from its nodes finds that ends. -/
theorem ofNodes_of_walk {n : Nat} {start : List Node} {atoms : AtomTable} {s : Survey}
    (hin : ∀ {n : Node}, h.Reaches start n → ∃ d, h.deref n = .ok d ∧ h.InRange d)
    (hw : walk h n start { atoms } = .ok s) : ofNodes h atoms start = .ok s := by
  obtain ⟨s', hs'⟩ := ofNodes_ok atoms hin
  have hs := walk_mono (Nat.le_max_left n (start.length + edgeCount h)) hw
  have hs'' := walk_mono (Nat.le_max_right n (start.length + edgeCount h)) hs'
  rw [hs] at hs''
  cases hs''
  exact hs'

end Survey

end Dataflow
