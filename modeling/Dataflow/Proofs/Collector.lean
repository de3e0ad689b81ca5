import Dataflow.Proofs.HalfBuilt

/-! # What a collector does

  Relocating a node keeps the invariant of the half-built heap, visits exactly what a survey visits,
  and leads to where the survey has the node then. This is shown once for relocations of any
  kind (`Collector.Relocates`), and carried from literals, features and listeners over records and
  variables to nodes, threads and the whole machine.
-/

namespace Dataflow

open Survey (Visits)

namespace Collector

variable {α β : Type} {h : Heap} {busy : List Node} {c c' : Collector}

theorem controls_eq_flatMap (ls : List Listener) :
    controls ls = ls.flatMap fun l => controls [l] := by
  induction ls with
  | nil => rfl
  | cons l ls ih =>
    rw [List.flatMap_cons, ← ih]
    cases l <;> simp [controls, Listener.control?, List.filterMap_cons]

/-! ### What relocating does -/

/-- Relocating something visits its nodes as a survey does and keeps the invariant, and the result
    is read off the survey. What was read off remains true of later surveys. -/
structure Relocates (h : Heap) (nodes : α → List Node) (value : Survey → α → β)
    (f : α → Collecting β) : Prop where
  spec : ∀ {busy : List Node} {x : α} {y : β} {c c' : Collector}, HalfBuilt h busy c →
    f x c = .ok (y, c') →
    Visits h (nodes x) c.survey c'.survey ∧ HalfBuilt h busy c' ∧ y = value c'.survey x
  stable : ∀ {s s' : Survey} {x : α}, s.Extends s' → (∀ n ∈ nodes x, s.Covers h n) →
    value s' x = value s x

theorem Relocates.mapM {nodes : α → List Node} {value : Survey → α → β} {f : α → Collecting β}
    (hf : Relocates h nodes value f) :
    Relocates h (List.flatMap nodes) (fun s xs => xs.map (value s)) (List.mapM f) where
  spec {busy xs ys c c'} hb hrun := by
    induction xs generalizing ys c with
    | nil =>
      obtain ⟨rfl, rfl⟩ := pure_run.mp hrun
      exact ⟨.nil h _, hb, rfl⟩
    | cons x xs ih =>
      rw [List.mapM_cons] at hrun
      obtain ⟨y, c₁, hx, hrun⟩ := bind_run.mp hrun
      obtain ⟨zs, c₂, hxs, hrun⟩ := bind_run.mp hrun
      obtain ⟨rfl, rfl⟩ := pure_run.mp hrun
      obtain ⟨hv, hb₁, rfl⟩ := hf.spec hb hx
      obtain ⟨hvs, hb₂, rfl⟩ := ih hb₁ hxs
      -- the first result is still right when the others have been relocated
      have hsame := hf.stable hvs.grows hv.covers
      exact ⟨hv.append hvs, hb₂, by rw [List.map_cons, hsame]⟩
  stable {s s' xs} he hcov := by
    refine List.map_congr_left fun x hx => hf.stable he fun n hn => hcov n ?_
    exact List.mem_flatMap.mpr ⟨x, hx, hn⟩

theorem relocates_literal (h : Heap) :
    Relocates h (fun l : Literal => [l.toNode]) Survey.literal relocateLiteral where
  spec {busy l y c c'} hb hrun := by
    cases l with
    | atom a =>
      obtain ⟨b, c₁, hb₁, hrun⟩ := bind_run.mp hrun
      obtain ⟨rfl, rfl⟩ := pure_run.mp hrun
      rw [intern_run] at hb₁
      cases hb₁
      exact ⟨.atom a, hb.intern a.content, by simp [Survey.literal, survey]⟩
    | _ =>
      obtain ⟨rfl, rfl⟩ := pure_run.mp hrun
      exact ⟨.inline rfl, hb, rfl⟩
  stable he _ := he.literal _

theorem relocates_feature (h : Heap) :
    Relocates h (fun f : Feature => [f.toNode]) Survey.feature relocateFeature where
  spec {busy f y c c'} hb hrun := by
    cases f with
    | int i =>
      obtain ⟨rfl, rfl⟩ := pure_run.mp hrun
      exact ⟨.inline rfl, hb, rfl⟩
    | literal l =>
      obtain ⟨l', c₁, hl, hrun⟩ := bind_run.mp hrun
      obtain ⟨rfl, rfl⟩ := pure_run.mp hrun
      obtain ⟨hv, hb₁, rfl⟩ := (relocates_literal h).spec hb hl
      exact ⟨hv, hb₁, rfl⟩
  stable he _ := he.feature _

/-- The nodes that an arity holds: the features that are stored. -/
def arityNodes : Arity → List Node
  | .tuple => []
  | .features names => names.map Feature.toNode

theorem edges_eq (r : Record) : r.edges = [r.label.toNode] ++ arityNodes r.arity ++ r.fields := by
  cases ha : r.arity <;> simp [Record.edges, arityNodes, ha]

theorem relocates_arity (h : Heap) : Relocates h arityNodes Survey.arity relocateArity where
  spec {busy a y c c'} hb hrun := by
    cases a with
    | tuple =>
      obtain ⟨rfl, rfl⟩ := pure_run.mp hrun
      exact ⟨.nil h _, hb, rfl⟩
    | features names =>
      obtain ⟨names', c₁, hnames, hrun⟩ := bind_run.mp hrun
      obtain ⟨rfl, rfl⟩ := pure_run.mp hrun
      obtain ⟨hv, hb₁, rfl⟩ := (relocates_feature h).mapM.spec hb hnames
      rw [← List.map_eq_flatMap] at hv
      exact ⟨hv, hb₁, rfl⟩
  stable he _ := he.arity _

section Parts

variable {move : Node → Collecting Node}
  (hmove : Relocates h (fun n => [n]) (fun s => s.moved h) move)

include hmove

theorem relocates_nodes :
    Relocates h (fun ns => ns) (fun s ns => ns.map (s.moved h)) (List.mapM move) := by
  have hnodes : List.flatMap (fun n : Node => [n]) = fun ns => ns :=
    funext List.flatMap_singleton'
  exact hnodes ▸ hmove.mapM

theorem relocates_parts :
    Relocates h Record.edges (fun s r => s.copyRecord h r) (relocateParts move) where
  spec {busy r y c c'} hb hrun := by
    obtain ⟨label, c₁, hlabel, hrun⟩ := bind_run.mp hrun
    obtain ⟨arity, c₂, harity, hrun⟩ := bind_run.mp hrun
    obtain ⟨fields, c₃, hfields, hrun⟩ := bind_run.mp hrun
    obtain ⟨rfl, rfl⟩ := pure_run.mp hrun
    obtain ⟨hv₁, hb₁, rfl⟩ := (relocates_literal h).spec hb hlabel
    obtain ⟨hv₂, hb₂, rfl⟩ := (relocates_arity h).spec hb₁ harity
    obtain ⟨hv₃, hb₃, rfl⟩ := (relocates_nodes hmove).spec hb₂ hfields
    refine ⟨edges_eq r ▸ (hv₁.append hv₂).append hv₃, hb₃, ?_⟩
    -- label and features are not changed by what comes after them
    rw [Survey.copyRecord, hv₃.grows.literal, hv₂.grows.literal, hv₃.grows.arity]
  stable he hcov := he.copyRecord hcov

theorem relocates_record : Relocates h (fun ref => [.record ref])
    (fun s ref => ⟨s.records.idxOf ref⟩) (relocateRecord h move) where
  spec {busy source y c c'} hb hrun := by
    obtain ⟨d, c₀, hget, hrun⟩ := bind_run.mp hrun
    obtain ⟨rfl, rfl⟩ := get_run.mp hget
    cases hl : c.records.lookup source with
    | some target =>
      rw [hl] at hrun
      obtain ⟨rfl, rfl⟩ := pure_run.mp hrun
      obtain ⟨hm, htarget⟩ := hb.of_lookup_record hl
      exact ⟨.knownRecord hm, hb, htarget⟩
    | none =>
      rw [hl] at hrun
      have hnew : source ∉ c.survey.records := not_mem_of_lookup hl
      obtain ⟨target, c₁, hreserve, hrun⟩ := bind_run.mp hrun
      obtain ⟨r, c₂, hread, hrun⟩ := bind_run.mp hrun
      obtain ⟨hr, rfl⟩ := lift_run.mp hread
      obtain ⟨r', c₃, hparts, hrun⟩ := bind_run.mp hrun
      obtain ⟨u, c₄, hfill, hrun⟩ := bind_run.mp hrun
      obtain ⟨rfl, rfl⟩ := pure_run.mp hrun
      cases hreserve
      cases hfill
      -- the record is under way while its parts are relocated, and keeps its place
      obtain ⟨hv, hb₃, rfl⟩ := (relocates_parts hmove).spec (hb.reserveRecord hnew) hparts
      rw [survey_addRecord] at hv
      have htarget : c₃.survey.records[c.heap.records.size]? = some source :=
        hb.records_length ▸ getElem?_of_concat_prefix hv.grows.records
      refine ⟨.newRecord hnew hr hv, hb₃.fillRecord htarget hr hv.covers, ?_⟩
      exact congrArg RecordRef.mk (idxOf_of_getElem? hb₃.recordsNodup htarget).symm
  stable {s s' ref} he hcov := by
    have hm := Survey.mem_of_covers_record (hcov _ (List.mem_singleton.mpr rfl))
    rw [he.records.idxOf_eq_of_mem hm]

theorem relocates_listener : Relocates h (fun l => controls [l])
    (fun s l => l.relocate (s.moved h)) (relocateListener move) where
  spec {busy l y c c'} hb hrun := by
    cases l with
    | thread id =>
      obtain ⟨rfl, rfl⟩ := pure_run.mp hrun
      exact ⟨.nil h _, hb, rfl⟩
    | control v =>
      obtain ⟨n, c₁, hn, hrun⟩ := bind_run.mp hrun
      obtain ⟨rfl, rfl⟩ := pure_run.mp hrun
      obtain ⟨hv, hb₁, rfl⟩ := hmove.spec hb hn
      exact ⟨hv, hb₁, rfl⟩
  stable he hcov := he.listener hcov

theorem relocates_variable : Relocates h (fun v => [.variable v])
    (fun s v => s.moved h (.variable v)) (relocateVariable h move) where
  spec {busy source y c c'} hb hrun := by
    obtain ⟨cell, c₀, hread, hrun⟩ := bind_run.mp hrun
    obtain ⟨hcell, rfl⟩ := lift_run.mp hread
    cases cell with
    | bound value =>
      obtain ⟨hv, hb₁, rfl⟩ := hmove.spec hb hrun
      refine ⟨.bound hcell hv, hb₁, ?_⟩
      obtain ⟨d, hd, -⟩ := hv.covers value (List.mem_singleton.mpr rfl)
      have hd' : h.deref (.variable source) = .ok d := (Heap.deref_bound hcell).trans hd
      rw [Survey.moved_of_deref hd, Survey.moved_of_deref hd']
    | unbound ls =>
      obtain ⟨d, c₀, hget, hrun⟩ := bind_run.mp hrun
      obtain ⟨rfl, rfl⟩ := get_run.mp hget
      cases hl : c.vars.lookup source with
      | some target =>
        rw [hl] at hrun
        obtain ⟨rfl, rfl⟩ := pure_run.mp hrun
        obtain ⟨hm, rfl⟩ := hb.of_lookup_var hl
        exact ⟨.knownVar hcell hm, hb, (Survey.moved_variable hcell).symm⟩
      | none =>
        rw [hl] at hrun
        have hnew : source ∉ c.survey.vars := not_mem_of_lookup hl
        obtain ⟨target, c₁, hreserve, hrun⟩ := bind_run.mp hrun
        obtain ⟨kept, c₃, hkept, hrun⟩ := bind_run.mp hrun
        obtain ⟨u, c₄, hfill, hrun⟩ := bind_run.mp hrun
        obtain ⟨rfl, rfl⟩ := pure_run.mp hrun
        cases hreserve
        cases hfill
        -- the variable is under way while those who listen to it are relocated
        obtain ⟨hv, hb₃, rfl⟩ :=
          (relocates_listener hmove).mapM.spec (hb.reserveVariable hnew) hkept
        rw [survey_addVar, ← controls_eq_flatMap] at hv
        have htarget : c₃.survey.vars[c.heap.cells.size]? = some source :=
          hb.vars_length ▸ getElem?_of_concat_prefix hv.grows.vars
        have hcopy : Cell.unbound ((ls.map (Listener.relocate (c₃.survey.moved h))).filterMap
            fun l => l) = c₃.survey.copyCell h ls := by
          simp [Survey.copyCell, List.filterMap_map]
        rw [hcopy]
        refine ⟨.newVar hnew hcell hv, hb₃.fillVariable htarget hcell hv.covers, ?_⟩
        rw [Survey.moved_variable hcell]
        exact congrArg (fun i => Node.variable ⟨i⟩) (idxOf_of_getElem? hb₃.varsNodup htarget).symm
  stable he hcov := he.moved (hcov _ (List.mem_singleton.mpr rfl))

end Parts

/-- Relocating a node leads to where the survey has it. -/
theorem relocates (h : Heap) (n : Nat) :
    Relocates h (fun x => [x]) (fun s => s.moved h) (relocate h n) := by
  -- on the depth: what a record or a variable needs of its parts is the statement one level down
  induction n with
  | zero =>
    constructor
    · intro busy x y c c' _ hrun
      cases hrun
    · exact fun he hcov => he.moved (hcov _ (List.mem_singleton.mpr rfl))
  | succ n ih =>
    refine ⟨fun {busy x y c c'} hb hrun => ?_, ?_⟩
    rotate_left
    · exact fun he hcov => he.moved (hcov _ (List.mem_singleton.mpr rfl))
    cases x with
    | atom a =>
      obtain ⟨b, c₁, hintern, hrun⟩ := bind_run.mp hrun
      obtain ⟨rfl, rfl⟩ := pure_run.mp hrun
      rw [intern_run] at hintern
      cases hintern
      refine ⟨.atom a, hb.intern a.content, ?_⟩
      rw [Survey.moved_of_deref (Heap.deref_of_value rfl)]
      simp [Survey.place, survey]
    | record ref =>
      obtain ⟨target, c₁, htarget, hrun⟩ := bind_run.mp hrun
      obtain ⟨rfl, rfl⟩ := pure_run.mp hrun
      obtain ⟨hv, hb₁, rfl⟩ := (relocates_record ih).spec hb htarget
      exact ⟨hv, hb₁, (Survey.moved_record ref).symm⟩
    | «variable» v => exact (relocates_variable ih).spec hb hrun
    | _ =>
      obtain ⟨rfl, rfl⟩ := pure_run.mp hrun
      exact ⟨.inline rfl, hb, rfl⟩

/-! ### Threads -/

/-- The nodes that the state of a thread keeps alive. -/
def stateNodes : ThreadState → List Node
  | .waiting v => [.variable v]
  | .failed exception => [exception]
  | .runnable | .terminated => []

theorem threadNodes_eq (t : Thread) : t.nodes = t.registers ++ stateNodes t.state := by
  cases hs : t.state <;> simp [Thread.nodes, stateNodes, hs]

section Threads

variable {move : Node → Collecting Node}
  (hmove : Relocates h (fun n => [n]) (fun s => s.moved h) move)

include hmove

theorem relocates_state :
    Relocates h stateNodes (fun s t => t.relocate (s.moved h)) (relocateState move) where
  spec {busy t y c c'} hb hrun := by
    cases t with
    | waiting v =>
      obtain ⟨n, c₁, hn, hrun⟩ := bind_run.mp hrun
      obtain ⟨hv, hb₁, rfl⟩ := hmove.spec hb hn
      rw [ThreadState.relocate]
      -- a thread whose variable has a value now runs again
      cases hw : c₁.survey.moved h (.variable v) <;> rw [hw] at hrun <;>
        obtain ⟨rfl, rfl⟩ := pure_run.mp hrun
      all_goals exact ⟨hv, hb₁, by rw [hw]⟩
    | failed e =>
      obtain ⟨n, c₁, hn, hrun⟩ := bind_run.mp hrun
      obtain ⟨rfl, rfl⟩ := pure_run.mp hrun
      obtain ⟨hv, hb₁, rfl⟩ := hmove.spec hb hn
      exact ⟨hv, hb₁, rfl⟩
    | _ =>
      obtain ⟨rfl, rfl⟩ := pure_run.mp hrun
      exact ⟨.nil h _, hb, rfl⟩
  stable {s s' t} he hcov := by
    cases t with
    | waiting v => simp only [ThreadState.relocate, he.moved (hcov _ (List.mem_singleton.mpr rfl))]
    | failed e => simp only [ThreadState.relocate, he.moved (hcov _ (List.mem_singleton.mpr rfl))]
    | _ => rfl

theorem relocates_thread :
    Relocates h Thread.nodes (fun s t => t.relocate (s.moved h)) (relocateThread move) where
  spec {busy t y c c'} hb hrun := by
    obtain ⟨registers, c₁, hregisters, hrun⟩ := bind_run.mp hrun
    obtain ⟨state, c₂, hstate, hrun⟩ := bind_run.mp hrun
    obtain ⟨rfl, rfl⟩ := pure_run.mp hrun
    obtain ⟨hv₁, hb₁, rfl⟩ := (relocates_nodes hmove).spec hb hregisters
    obtain ⟨hv₂, hb₂, rfl⟩ := (relocates_state hmove).spec hb₁ hstate
    have hsame := (relocates_nodes hmove).stable hv₂.grows hv₁.covers
    exact ⟨threadNodes_eq t ▸ hv₁.append hv₂, hb₂, by rw [Thread.relocate, hsame]⟩
  stable {s s' t} he hcov := by
    rw [threadNodes_eq] at hcov
    have hregisters := (relocates_nodes hmove).stable (x := t.registers) he fun n hn =>
      hcov n (List.mem_append_left _ hn)
    have hstate := (relocates_state hmove).stable (x := t.state) he fun n hn =>
      hcov n (List.mem_append_right _ hn)
    simp only [Thread.relocate] at hregisters hstate ⊢
    rw [hregisters, hstate]

end Threads

/-- The threads that stopped waiting, read off the pairs of old and new threads. -/
theorem resumed_eq (threads : List Thread) (φ : Node → Node) :
    ((threads.zip (threads.map (Thread.relocate φ))).filterMap fun (before, after) =>
      if before.state.isWaiting && after.state.isRunnable then some after.id else none) =
    (threads.filter fun t =>
      t.state.isWaiting && (t.state.relocate φ).isRunnable).map Thread.id := by
  induction threads with
  | nil => rfl
  | cons t ts ih =>
    simp only [List.map_cons, List.zip_cons_cons, List.filterMap_cons, List.filter_cons, ih]
    by_cases ht : (t.state.isWaiting && (t.state.relocate φ).isRunnable) = true
    · simp [Thread.relocate, ht]
    · simp [Thread.relocate, ht]

end Collector

namespace Machine

variable {m m' : Machine} {φ : Node → Node}

open Collector

/-! ### The machine after a collection -/

/-- A collection ends in the machine put together from the survey and the copies. -/
theorem copyLive_of_collect (hc : m.collect = .ok m') : m.copyLive = .ok m' := by
  obtain ⟨⟨roots, c₁⟩, hroots, hc⟩ := bind_eq_ok.mp hc
  obtain ⟨⟨scheduler, c⟩, hscheduler, hc⟩ := bind_eq_ok.mp hc
  cases hc
  obtain ⟨threads, c₂, hthreads, hrun⟩ := bind_run.mp hscheduler
  obtain ⟨rfl, rfl⟩ := pure_run.mp hrun
  -- nothing is under way before the roots are relocated, between roots and threads, and at the end
  have hmove := relocates m.heap m.heap.relocationDepth
  obtain ⟨hv₁, hb₁, rfl⟩ :=
    (relocates_nodes hmove).spec (.initial m.heap [] m.atoms.successor) hroots
  obtain ⟨hv₂, hb₂, rfl⟩ := (relocates_thread hmove).mapM.spec hb₁ hthreads
  have hvisits : Visits m.heap m.liveNodes { atoms := m.atoms.successor } c₂.survey :=
    hv₁.append hv₂
  have hroots := (relocates_nodes hmove).stable hv₂.grows hv₁.covers
  have hsurvey : m.survey m.liveNodes = .ok c₂.survey := hvisits.ofNodes
  rw [copyLive, hsurvey, ok_bind, hb₂.copyHeap_eq, ok_bind, resumed_eq, ← hroots]
  rfl

/-- A collection that succeeds is described by a map of nodes. -/
theorem relocation_of_collect (hc : m.collect = .ok m') : ∃ φ, Relocation m m' φ :=
  relocation_of_copyLive (copyLive_of_collect hc)

end Machine

end Dataflow
