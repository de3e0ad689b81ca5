import Dataflow.Proofs.Parts
import Dataflow.Proofs.Wakeup

/-! # Threads that work on nodes of a kind

  The code of a thread is checked when it is spawned: each instruction has as many operands as its
  builtin takes, and all of them are among the registers. So a thread never reads a register that it
  does not have. If its registers hold nodes of some kind, then the operands of its calls are of that
  kind, and what a call writes to the registers is what the call gives.
-/

namespace Dataflow

theorem forM_eq_ok {ε α : Type} {f : α → Except ε Unit} {xs : List α} (hf : xs.forM f = .ok ()) :
    ∀ x ∈ xs, f x = .ok () := by
  induction xs with
  | nil => exact fun _ hx => absurd hx List.not_mem_nil
  | cons x xs ih =>
    obtain ⟨u, hx, hxs⟩ := bind_eq_ok.mp hf
    intro y hy
    rcases List.mem_cons.mp hy with rfl | hy
    · exact hx
    · exact ih hxs y hy

theorem Machine.checkInstruction_eq_ok {available : Nat} {i : Instruction}
    (hc : checkInstruction available i = .ok ()) :
    i.inputs.length = i.builtin.inputs ∧ i.outputs.length = i.builtin.outputs ∧
      ∀ r ∈ i.inputs ++ i.outputs, r < available := by
  unfold checkInstruction at hc
  split at hc
  · cases hc
  · next hin =>
    split at hc
    · cases hc
    · next hout =>
      split at hc
      · cases hc
      · next hnone =>
        refine ⟨not_not.mp hin, not_not.mp hout, fun r hr => ?_⟩
        have hle := List.find?_eq_none.mp hnone r hr
        simpa using hle

namespace Thread

variable {T T' : Node → Prop} {t : Thread}

/-! ### Registers -/

theorem length_store (registers : List Node) (rs : List Nat) (ns : List Node) :
    (store registers rs ns).length = registers.length := by
  fun_induction store registers rs ns with
  | case1 registers r rs n ns ih => simpa using ih
  | case2 => rfl

theorem mem_store {registers : List Node} {rs : List Nat} {ns : List Node} {n : Node}
    (hn : n ∈ store registers rs ns) : n ∈ registers ∨ n ∈ ns := by
  fun_induction store registers rs ns with
  | case1 registers r rs x ns ih =>
    rcases ih hn with hn | hn
    · rcases List.mem_or_eq_of_mem_set hn with hn | rfl
      · exact .inl hn
      · exact .inr (List.mem_cons_self ..)
    · exact .inr (List.mem_cons_of_mem _ hn)
  | case2 => exact .inl hn

/-- A thread that holds nodes of a kind, with code that has been checked. -/
structure Within (T : Node → Prop) (t : Thread) : Prop where
  /-- Its registers hold nodes of the kind. -/
  registers : ∀ n ∈ t.registers, T n
  /-- Its instructions have as many operands as they need, all of them among its registers. -/
  code : ∀ i ∈ t.code, Machine.checkInstruction t.registers.length i = .ok ()
  /-- What it has raised is of the kind. -/
  exception : ∀ e, t.state = .failed e → T e

theorem Within.mono (ht : t.Within T) (hT : ∀ n, T n → T' n) : t.Within T' :=
  ⟨fun n hn => hT n (ht.registers n hn), ht.code, fun e he => hT e (ht.exception e he)⟩

/-- The thread may be in another state, unless it fails. -/
theorem Within.state (ht : t.Within T) {state : ThreadState} (hs : ∀ e, state = .failed e → T e) :
    { t with state }.Within T :=
  ⟨ht.registers, ht.code, hs⟩

theorem Within.advance (ht : t.Within T) (outputs : List Nat) {results : List Node}
    (hr : ∀ n ∈ results, T n) : (t.advance outputs results).Within T := by
  refine ⟨fun n hn => ?_, fun i hi => ?_, ht.exception⟩
  · rcases mem_store hn with hn | hn
    · exact ht.registers n hn
    · exact hr n hn
  · show Machine.checkInstruction (store _ _ _).length i = .ok ()
    rw [length_store]
    exact ht.code i hi

/-- The operands of an instruction are there, and of the kind. -/
theorem Within.operands (ht : t.Within T) {i : Instruction} (hi : i ∈ t.code) :
    ∃ operands, i.inputs.mapM t.register = .ok operands ∧
      operands.length = i.builtin.inputs ∧ ∀ n ∈ operands, T n := by
  obtain ⟨hlen, -, hrange⟩ := Machine.checkInstruction_eq_ok (ht.code i hi)
  have hregister : ∀ r ∈ i.inputs, ∃ n, t.register r = .ok n := by
    intro r hr
    have hget : t.registers[r]? = some (t.registers.get ⟨r, hrange r (List.mem_append_left _ hr)⟩) :=
      List.getElem?_eq_getElem _
    exact ⟨_, by rw [register, hget]⟩
  obtain ⟨operands, ho⟩ := mapM_exists hregister
  obtain ⟨-, hmem⟩ := mapM_register_relocate (φ := fun n => n) ho
  exact ⟨operands, ho, (mapM_length ho).trans hlen, fun n hn => ht.registers n (hmem n hn)⟩

/-! ### After a turn -/

/-- What is put back after a turn: a runnable thread without instructions is done. -/
def ended (t : Thread) : Thread :=
  if t.state.isRunnable && t.isFinished then { t with state := .terminated } else t

@[simp] theorem ended_id (t : Thread) : t.ended.id = t.id := by
  unfold ended; split <;> rfl

@[simp] theorem ended_code (t : Thread) : t.ended.code = t.code := by
  unfold ended; split <;> rfl

@[simp] theorem ended_pc (t : Thread) : t.ended.pc = t.pc := by
  unfold ended; split <;> rfl

theorem Within.ended (ht : t.Within T) : t.ended.Within T := by
  unfold Thread.ended
  split
  · exact ht.state nofun
  · exact ht

/-- A thread that is finished or has stopped is not runnable after its turn. -/
theorem ended_not_runnable (ht : t.state ≠ .runnable ∨ t.isFinished = true) :
    t.ended.state ≠ .runnable := by
  unfold Thread.ended
  split
  · simp
  · next hnot =>
    intro hs
    rcases ht with ht | ht
    · exact ht hs
    · exact hnot (by rw [hs, ht]; rfl)

end Thread

theorem Machine.putBack_threads (m : Machine) (t : Thread) :
    (m.putBack t).scheduler.threads = (m.scheduler.update t.ended).threads := by
  unfold Machine.putBack Thread.ended
  split
  · next hs =>
    split
    · next hf => rw [hs, hf]; rfl
    · next hf => rw [hs, Bool.eq_false_iff.mpr hf]; rfl
  · next hs => rw [Bool.eq_false_iff.mpr hs]; rfl

/-! ### Images -/

theorem Record.IsImage.mem_edges {φ : Node → Node} {r r' : Record} (him : r.IsImage φ r')
    {n' : Node} (hn' : n' ∈ r'.edges) : ∃ n ∈ r.edges, n' = φ n := by
  have hfields : n' ∈ r'.fields → ∃ n ∈ r.edges, n' = φ n := by
    intro hn'
    rw [him.fields] at hn'
    obtain ⟨n, hn, rfl⟩ := List.mem_map.mp hn'
    exact ⟨n, Heap.field_mem_edges hn, rfl⟩
  rcases List.mem_cons.mp hn' with rfl | hn'
  · exact ⟨_, Heap.label_mem_edges r, him.label⟩
  rcases List.mem_append.mp hn' with hn' | hn'
  · rcases him.arity with ⟨-, ha'⟩ | ⟨names, names', ha, ha', hnames⟩
    · rw [ha'] at hn'
      cases hn'
    · rw [ha'] at hn'
      dsimp only at hn'
      rw [hnames] at hn'
      obtain ⟨f, hf, rfl⟩ := List.mem_map.mp hn'
      exact ⟨_, Heap.feature_mem_edges ha hf, rfl⟩
  · exact hfields hn'

/-- What is alive is moved to a node that fits. -/
theorem Machine.Relocation.fits_image {m m' : Machine} {φ : Node → Node} (hr : Relocation m m' φ)
    (htable : m.atoms.id.owner = m.id) {n : Node} (hlive : m.Live n) : m'.heap.Fits m'.id (φ n) := by
  obtain ⟨d, hd, hin⟩ := hr.inRange hlive
  have hld : m.Live d := hlive.deref hd
  rw [hr.deref hlive hd]
  cases d with
  | atom a =>
    rw [(hr.atom hld).1]
    show m'.atoms.id.owner = m'.id
    rw [hr.table, hr.rest.1]
    exact htable
  | record ref =>
    obtain ⟨r, href⟩ := Heap.record_of_inRange hin
    obtain ⟨ref', r', hφ, href', -⟩ := hr.record hld href
    rw [hφ]
    exact Heap.inRange_of_record href'
  | «variable» v =>
    obtain ⟨ls, hv⟩ := Heap.cell_of_deref hd
    obtain ⟨w, hφ, hw⟩ := hr.var hld hv
    rw [hφ]
    exact Heap.inRange_of_cell hw
  | _ =>
    rw [hr.inline hld rfl]
    trivial

theorem ThreadState.relocate_eq_failed {φ : Node → Node} {state : ThreadState} {e' : Node}
    (hs : state.relocate φ = .failed e') : ∃ e, state = .failed e ∧ e' = φ e := by
  cases state with
  | waiting v =>
    simp only [ThreadState.relocate] at hs
    split at hs <;> cases hs
  | failed e => cases hs; exact ⟨e, rfl, rfl⟩
  | _ => cases hs

/-- The image of a thread holds the images of its nodes. -/
theorem Thread.Within.relocate {T T' : Node → Prop} {φ : Node → Node} {t : Thread} (ht : t.Within T)
    (hregisters : ∀ n ∈ t.registers, T n → T' (φ n))
    (hexception : ∀ e, t.state = .failed e → T e → T' (φ e)) : (t.relocate φ).Within T' := by
  refine ⟨fun n' hn' => ?_, fun i hi => ?_, fun e' he' => ?_⟩
  · obtain ⟨n, hn, rfl⟩ := List.mem_map.mp hn'
    exact hregisters n hn (ht.registers n hn)
  · show Machine.checkInstruction (t.registers.map φ).length i = .ok ()
    rw [List.length_map]
    exact ht.code i hi
  · obtain ⟨e, hs, rfl⟩ := ThreadState.relocate_eq_failed he'
    exact hexception e hs (ht.exception e hs)

end Dataflow
