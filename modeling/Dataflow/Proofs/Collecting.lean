import Dataflow.Proofs.Wakeup

/-! # Collections of reachable machines

  A collection of a reachable machine succeeds unless something that is alive dangles, and moves
  everything that is alive to a place of its own. No thread stops or starts to wait: the variable
  that a thread waits for is unbound, so it is moved to a variable, and the queue stays as it is.
-/

namespace Dataflow

/-- The nodes that a cell holds. -/
def Cell.nodes : Cell → List Node
  | .unbound listeners => controls listeners
  | .bound value => [value]

namespace Machine

variable {m m' : Machine} {φ : Node → Node}

/-! ### References that are in range -/

/-- If all references of a machine are in range, then those are that are alive. -/
theorem inRange_of_live (hlive : ∀ n ∈ m.liveNodes, m.heap.InRange n)
    (hrecords : ∀ r ∈ m.heap.records.toList, ∀ n ∈ r.edges, m.heap.InRange n)
    (hcells : ∀ c ∈ m.heap.cells.toList, ∀ n ∈ c.nodes, m.heap.InRange n) {n : Node}
    (hn : m.Live n) : m.heap.InRange n := by
  have hcell : ∀ {v : VarRef} {c : Cell}, m.heap.cell v = .ok c → c ∈ m.heap.cells.toList :=
    fun hc => Array.mem_toList_iff.mpr (Array.mem_of_getElem? (Heap.cell_eq_ok_iff.mp hc))
  induction hn with
  | start hn => exact hlive _ hn
  | edge _ hr hn =>
    have hmem := Array.mem_of_getElem? (Heap.record_eq_ok_iff.mp hr)
    exact hrecords _ (Array.mem_toList_iff.mpr hmem) _ hn
  | value _ hc => exact hcells _ (hcell hc) _ (List.mem_singleton.mpr rfl)
  | control _ hc hl => exact hcells _ (hcell hc) _ (mem_controls.mpr ⟨_, hl, rfl⟩)

/-! ### Threads that wait go on waiting -/

/-- The image of a variable that a thread waits for is a variable. -/
theorem Relocation.waiting (hr : Relocation m m' φ)
    (hw : Waits m.heap m.scheduler.threads m.scheduler.spawned) {t : Thread}
    (ht : t ∈ m.scheduler.threads) {v : VarRef} (hs : t.state = .waiting v) :
    ∃ w, φ (.variable v) = .variable w ∧ t.state.relocate φ = .waiting w := by
  obtain ⟨ls, hv⟩ := (hw.parked t ht hs).unbound
  obtain ⟨w, hφ, -⟩ := hr.var (live_waiting ht hs) hv
  exact ⟨w, hφ, ThreadState.relocate_eq_waiting.mpr ⟨v, hs, hφ⟩⟩

/-- No thread is put into the queue by a collection. -/
theorem Relocation.ready_eq (hr : Relocation m m' φ)
    (hw : Waits m.heap m.scheduler.threads m.scheduler.spawned) :
    m'.scheduler.ready = m.scheduler.ready := by
  have hnone : (m.scheduler.threads.filter fun t =>
      t.state.isWaiting && (t.state.relocate φ).isRunnable) = [] := by
    refine List.filter_eq_nil_iff.mpr fun t ht => ?_
    cases hs : t.state with
    | waiting v =>
      obtain ⟨w, -, hrel⟩ := hr.waiting hw ht hs
      rw [hs] at hrel
      simp [hrel, ThreadState.isRunnable]
    | _ => simp [ThreadState.isWaiting]
  rw [hr.ready, hnone, List.map_nil, List.append_nil]

/-! ### The theorem -/

/-- A collection of a reachable machine in which nothing that is alive dangles succeeds, and is
    described by a map of nodes: it leads to where the memos lead once nothing is under way any
    more. The threads that wait go on waiting, and the queue stays. -/
theorem Reachable.collect_isomorphic (hm : Reachable m)
    (hin : ∀ n, m.Live n → m.heap.InRange n) :
    ∃ m' φ, m.collect = .ok m' ∧ Relocation m m' φ ∧
      (∀ t ∈ m.scheduler.threads, ∀ v, t.state = .waiting v →
        ∃ w, φ (.variable v) = .variable w ∧ (t.relocate φ).state = .waiting w) ∧
      m'.scheduler.ready = m.scheduler.ready := by
  obtain ⟨m', hc⟩ := collect_ok hm.waits.grounded (fun hn => hin _ hn)
  obtain ⟨φ, hr⟩ := relocation_of_collect hc
  exact ⟨m', φ, hc, hr, fun t ht v hs => hr.waiting hm.waits ht hs, hr.ready_eq hm.waits⟩

/-- A machine with a record that contains itself through a bound variable. -/
def looped : Machine :=
  { id := ⟨0⟩
    heap := {
      records := #[⟨.unit, .tuple, [.variable ⟨0⟩]⟩]
      cells := #[.bound (.record ⟨0⟩)]
      allocated := 2 }
    roots := [.variable ⟨0⟩] }

theorem reachable_looped : Reachable looped := by
  have h₁ := (Reachable.new ⟨0⟩ {}).step (.newVariable _)
  have h₂ := h₁.step (.buildTuple .unit [.variable ⟨0⟩] rfl)
  have h₃ := h₂.step (.bind ⟨0⟩ (.record ⟨0⟩) rfl)
  exact h₃.step (.addRoot _ (.variable ⟨0⟩))

theorem collect_looped_isomorphic : Reachable looped ∧
    (∀ n, looped.Live n → looped.heap.InRange n) ∧
    ∃ m' φ, looped.collect = .ok m' ∧ Relocation looped m' φ := by
  have hin : ∀ n, looped.Live n → looped.heap.InRange n :=
    fun n hn => inRange_of_live (by decide) (by decide) (by decide) hn
  obtain ⟨m', φ, hc, hr, -⟩ := reachable_looped.collect_isomorphic hin
  exact ⟨reachable_looped, hin, m', φ, hc, hr⟩

end Machine

end Dataflow
