import Dataflow.Proofs.Fates
import Dataflow.Proofs.Idle

/-! # Every thread meets its fate

  While threads run that bind nothing, each of them moves on towards the fate that it had at the
  start, whoever else runs in between and however often the garbage is collected: its calls come to
  what they would have come to then. When no thread is runnable any more, each one has met its fate. A
  thread that waits at the end is blocked, since the call that it would make again suspends.

  Main statement: a run takes every thread of the machine to its fate. Nothing is said of the order of
  the turns, nor of their length.
-/

namespace Dataflow

open Waits (Running)
open Machine (Poised Free Quiet)

variable {β γ : VarRef → VarRef → Prop} {a b : View} {m₀ m m' : Machine} {t t' u : Thread}
  {F : Except Fault (Thread × Ending)}

/-! ### On the way -/

/-- The thread is on its way to the fate `F`, or has met it. -/
inductive Stands (β : VarRef → VarRef → Prop) (m₀ : Machine) (b : View)
    (F : Except Fault (Thread × Ending)) (t : Thread) : Prop where
  /-- It still has calls to make, and its fate is that of a thread of the machine at the start. -/
  | going {u : Thread} : t.state.isActive = true → u.state.isActive = true → m₀.fate u = F →
      Peers β m₀.view b u t → Stands β m₀ b F t
  | done {u : Thread} : t.state = .terminated → F = .ok (u, .done) → Peers β m₀.view b u t →
      Stands β m₀ b F t
  | failed {u : Thread} {e₀ e : Node} {after : Machine} : t.state = .failed e →
      F = .ok (u, .raised e₀ after) → Peers β m₀.view b u t → Resembles β after.view b e₀ e →
      Stands β m₀ b F t

/-- The machine is on its way from `m₀`. -/
structure Course (β : VarRef → VarRef → Prop) (m₀ m : Machine) : Prop extends Abreast β m₀ m where
  threads : List.Forall₂ (fun t₀ t => Stands β m₀ m.view (m₀.fate t₀) t) m₀.scheduler.threads
    m.scheduler.threads
  bindFree : ∀ t ∈ m.scheduler.threads, t.BindFree

/-! ### Quiet steps -/

theorem Resembles.quiet {n n' : Node} (hn : Resembles β a m.view n n') (hq : m.Quiet m') :
    Resembles β a m'.view n n' := by
  have htable : m'.view.table = m.view.table := hq.table
  exact hn.extend rfl htable (.refl _) hq.heap fun _ _ hv => hv

theorem Peers.quiet (ht : Peers β a m.view u t) (hq : m.Quiet m') : Peers β a m'.view u t :=
  ht.imp fun _ _ hn => hn.quiet hq

theorem Stands.quiet (hs : Stands β m₀ m.view F t) (hq : m.Quiet m') : Stands β m₀ m'.view F t := by
  cases hs with
  | going ht hu hf hpeers => exact .going ht hu hf (hpeers.quiet hq)
  | done ht hf hpeers => exact .done ht hf (hpeers.quiet hq)
  | failed ht hf hpeers he => exact .failed ht hf (hpeers.quiet hq) (he.quiet hq)

/-- The second machine may take quiet steps. -/
theorem Abreast.quiet (h : Abreast β m₀ m) (hm' : m'.Poised) (hq : m.Quiet m')
    (ha : m.Advances m') : Abreast β m₀ m' where
  left := h.left
  right := hm'
  depth := by rw [hq.settings]; exact h.depth
  spawned := by rw [hq.scheduler]; exact h.spawned
  roots := by
    rw [hq.roots]
    exact h.roots.imp fun _ _ hn => hn.quiet hq
  free hv := ⟨(h.free hv).1, (h.free hv).2.advances ha hq.heap⟩
  unique_left := h.unique_left
  unique_right := h.unique_right

/-! ### A turn -/

/-- The next call of a thread comes to what it would have come to at the start. -/
theorem Abreast.next_call (h : Abreast β m₀ m) (hpeers : Peers β m₀.view m.view u t)
    {i : Instruction} (hi : t.code[t.pc]? = some i) (hop : i.builtin ≠ .bind) {operands : List Node}
    (hops : i.inputs.mapM t.register = .ok operands) {r : Outcome × Machine}
    (hcall : m.call i.builtin operands = .ok r) :
    ∃ ns r₀, u.code[u.pc]? = some i ∧ i.inputs.mapM u.register = .ok ns ∧
      m₀.call i.builtin ns = .ok r₀ ∧ Corresponds β m₀.view m.view r₀ r := by
  obtain ⟨ns, hns, hsame⟩ := (operands_agree hpeers.registers i.inputs).ok_right hops
  obtain ⟨r₀, hr₀, hcor⟩ := (h.call hop hsame).ok_right hcall
  have hiu : u.code[u.pc]? = some i := by
    rw [hpeers.code, hpeers.pc]
    exact hi
  exact ⟨ns, r₀, hiu, hns, hr₀, hcor⟩

/-- A turn is quiet, and takes the thread on towards its fate. -/
theorem Abreast.turn (n : Nat) (h : Abreast β m₀ m) (ht : t.Orderly m) (hfree : t.BindFree)
    (hstate : t.state = .runnable) (hrun : Running m.scheduler.threads t.id)
    (hturn : Machine.turn n m t = .ok (m', t')) :
    m.Quiet m' ∧ ∀ u, u.state.isActive = true → Peers β m₀.view m.view u t →
      Stands β m₀ m'.view (m₀.fate u) t' := by
  have hactive : t.state.isActive = true := by rw [hstate]; rfl
  -- by induction on the calls of the turn; the threads that may stand at the start change with them
  induction n generalizing m t with
  | zero =>
    cases hturn
    exact ⟨.refl _, fun u hu hpeers => .going hactive hu rfl hpeers⟩
  | succ n ih =>
    rw [Machine.turn] at hturn
    cases hi : t.code[t.pc]? with
    | none =>
      rw [hi] at hturn
      cases hturn
      exact ⟨.refl _, fun u hu hpeers => .going hactive hu rfl hpeers⟩
    | some i =>
      rw [hi] at hturn
      have hmem : i ∈ t.code := List.mem_of_getElem? hi
      have hop : i.builtin ≠ .bind := hfree i hmem
      obtain ⟨operands, hops, hlen, htrusted⟩ := ht.within.operands hmem
      obtain ⟨o, m₁, hcall, hdone⟩ :=
        Machine.settles_call h.right.orderly h.right.waits hlen htrusted
      simp only [hops, hcall, ok_bind] at hturn
      have hq : m.Quiet m₁ := h.right.quiet_call hop hcall
      obtain ⟨hw₁, hrun₁⟩ := h.right.waits.running_changes hrun
        (Machine.does_of_call h.right.waits.balanced hcall).changes
      have hm₁ : m₁.Poised := ⟨hdone.advances.orderly, hw₁⟩
      have ht₁ : t.Orderly m₁ := ht.advances hdone.advances
      cases o with
      | proceed results =>
        obtain ⟨hrest, hgoes⟩ := ih (h.quiet hm₁ hq hdone.advances)
          (ht₁.within.advance i.outputs hdone.proper).orderly hfree hstate hrun₁ hturn hactive
        refine ⟨hq.trans hrest, fun u hu hpeers => ?_⟩
        obtain ⟨ns, r, hiu, hns, hr, hcor⟩ := h.next_call hpeers hi hop hops hcall
        cases hcor with
        | proceed hresults =>
          rw [Machine.fate_call hu hiu hns, hr]
          exact hgoes _ hu ((hpeers.advance i.outputs hresults).quiet hq)
      | raise exception =>
        cases hturn
        refine ⟨hq, fun u hu hpeers => ?_⟩
        obtain ⟨ns, r, hiu, hns, hr, hcor⟩ := h.next_call hpeers hi hop hops hcall
        cases hcor with
        | raise he =>
          rw [Machine.fate_call hu hiu hns, hr]
          have hpeers₁ : Peers β m₀.view _ u { t with state := .failed exception } :=
            { hpeers.quiet hq with }
          exact .failed rfl rfl hpeers₁ he
      | suspend v =>
        -- the variable is unbound, so the thread is parked
        obtain ⟨ls, hv⟩ := hdone.proper
        obtain ⟨heap, ha⟩ : ∃ heap, m₁.heap.addListener v (.thread t.id) = .ok (true, heap) :=
          ⟨_, Heap.addListener_unbound hv _⟩
        simp only [ha, ok_bind] at hturn
        cases hturn
        have hpark : m₁.Quiet { m₁ with heap } :=
          ⟨rfl, rfl, rfl, rfl, Heap.extends_addListener ha⟩
        refine ⟨hq.trans hpark, fun u hu hpeers => ?_⟩
        have hpeers₁ : Peers β m₀.view _ u { t with state := .waiting v } :=
          { (hpeers.quiet hq).quiet hpark with }
        exact .going rfl hu rfl hpeers₁

/-- A thread that has made all of its calls has met its fate. -/
theorem Stands.ended (hs : Stands β m₀ b F t) : Stands β m₀ b F t.ended := by
  unfold Thread.ended
  split
  · next hend =>
    obtain ⟨hrunnable, hfinished⟩ := Bool.and_eq_true_iff.mp hend
    cases hs with
    | @going u _ hu hf hpeers =>
      have hfinished₀ : u.isFinished = true := by
        unfold Thread.isFinished at hfinished ⊢
        rw [hpeers.code, hpeers.pc]
        exact hfinished
      rw [Machine.fate_finished hu hfinished₀] at hf
      have hpeers₁ : Peers β m₀.view b _ { t with state := .terminated } := { hpeers with }
      exact .done rfl hf.symm hpeers₁
    | done ht _ _ => rw [ht] at hrunnable; cases hrunnable
    | failed ht _ _ _ => rw [ht] at hrunnable; cases hrunnable
  · exact hs

/-- The turn of a thread of the table takes the machine on. -/
theorem Course.slice (h : Course β m₀ m) (ht : t ∈ m.scheduler.threads)
    (hstate : t.state = .runnable) {n : Nat} (hturn : Machine.turn n m t = .ok (m', t')) :
    Course β m₀ (m'.putBack t') := by
  have hrun : Running m.scheduler.threads t.id := ⟨t, ht, rfl, hstate⟩
  have hto : t.Orderly m := h.right.orderly.threads t ht
  -- the turn is quiet for all other threads, and takes its own thread along its course
  obtain ⟨hq, hgoes⟩ := h.toAbreast.turn n hto (h.bindFree t ht) hstate hrun hturn
  obtain ⟨m₁, t₁, hturn₁, htook, -⟩ := h.right.orderly.turn n h.right.waits hrun hto
  rw [hturn] at hturn₁
  cases hturn₁
  have hid : t'.id = t.id := (Machine.wakes_of_turn h.right.waits hrun hturn).2
  have hpoised : (m'.putBack t').Poised :=
    ⟨htook.advances.orderly.putBack htook.thread, h.right.waits.turn hrun hstate hturn⟩
  have hthreads : (m'.putBack t').scheduler.threads =
      m.scheduler.threads.map fun x => if x.id = t.id then t'.ended else x := by
    rw [Machine.putBack_threads, ← hq.scheduler]
    simp only [Scheduler.update, Thread.ended_id, hid]
  have hview : (m'.putBack t').view = m'.view := by
    rw [(Machine.putBack_rest m' t').1]
    rfl
  -- what is paired stays paired: settings, roots, free variables, then the threads one by one
  refine ⟨⟨h.left, hpoised, ?_, ?_, ?_, ?_, h.unique_left, h.unique_right⟩, ?_, ?_⟩
  · rw [(Machine.putBack_rest m' t').1]
    show m₀.settings.printDepth = m'.settings.printDepth
    rw [hq.settings]
    exact h.depth
  · rw [(Machine.putBack_rest m' t').2, hq.scheduler]
    exact h.spawned
  · rw [hview, (Machine.putBack_rest m' t').1]
    show List.Forall₂ _ m₀.roots m'.roots
    rw [hq.roots]
    exact h.roots.imp fun _ _ hn => hn.quiet hq
  · intro v v' hv
    obtain ⟨hleft, hright⟩ := h.free hv
    have hright' : m'.Free v' := hright.advances htook.advances hq.heap
    rw [(Machine.putBack_rest m' t').1]
    exact ⟨hleft, hright'⟩
  · rw [hview, hthreads]
    refine List.forall₂_map_right_iff.mpr (forall₂_imp_right h.threads fun x hx t₀ hs => ?_)
    by_cases hxt : x.id = t.id
    · -- the thread whose turn it was
      rw [if_pos hxt]
      have heq : x = t := Scheduler.eq_of_id h.right.waits.nodup hx ht hxt
      subst heq
      cases hs with
      | going _ hu hf hpeers => exact hf ▸ (hgoes _ hu hpeers).ended
      | done hs _ _ => rw [hstate] at hs; cases hs
      | failed hs _ _ _ => rw [hstate] at hs; cases hs
    -- another thread, which the turn leaves as it is
    · rw [if_neg hxt]
      exact hs.quiet hq
  · intro x hx
    rw [hthreads] at hx
    obtain ⟨y, hy, rfl⟩ := List.mem_map.mp hx
    by_cases hyt : y.id = t.id
    · rw [if_pos hyt]
      show ∀ i ∈ t'.ended.code, i.builtin ≠ .bind
      rw [Thread.ended_code, htook.code]
      exact h.bindFree t ht
    · rw [if_neg hyt]
      exact h.bindFree y hy

/-! ### A collection -/

theorem Peers.moved {φ : Node → Node} (hr : Machine.Relocation m m' φ)
    (ht : t ∈ m.scheduler.threads) (hpeers : Peers β a m.view u t) :
    Peers (movedBy β m φ) a m'.view u (t.relocate φ) where
  id := hpeers.id
  code := hpeers.code
  pc := hpeers.pc
  registers := List.forall₂_map_right_iff.mpr <|
    forall₂_imp_right hpeers.registers fun _ hn _ h => h.moved hr (Machine.live_register ht hn)

theorem Stands.moved {φ : Node → Node} (hr : Machine.Relocation m m' φ)
    (ht : t ∈ m.scheduler.threads) (hs : Stands β m₀ m.view F t) :
    Stands (movedBy β m φ) m₀ m'.view F (t.relocate φ) := by
  cases hs with
  | going hactive hu hf hpeers =>
    refine .going ?_ hu hf (hpeers.moved hr ht)
    show (t.state.relocate φ).isActive = true
    cases hs : t.state with
    | runnable => rfl
    | waiting v =>
      -- the thread waits for the image of the variable, or goes on
      simp only [ThreadState.relocate]
      split <;> rfl
    | terminated => rw [hs] at hactive; cases hactive
    | failed e => rw [hs] at hactive; cases hactive
  | done hs hf hpeers =>
    refine .done ?_ hf (hpeers.moved hr ht)
    show t.state.relocate φ = .terminated
    rw [hs]
    rfl
  | @failed u e₀ e after hs hf hpeers he =>
    refine .failed ?_ hf (hpeers.moved hr ht) (he.moved hr (Machine.live_failed ht hs))
    show t.state.relocate φ = .failed (φ e)
    rw [hs]
    rfl

theorem Abreast.moved {φ : Node → Node} (h : Abreast β m₀ m) (hr : Machine.Relocation m m' φ)
    (hm' : m'.Poised) : Abreast (movedBy β m φ) m₀ m' where
  left := h.left
  right := hm'
  depth := by rw [hr.rest.2.1]; exact h.depth
  spawned := by rw [hr.spawned]; exact h.spawned
  roots := by
    rw [hr.roots]
    refine List.forall₂_map_right_iff.mpr (forall₂_imp_right h.roots fun n hn _ hnn => ?_)
    exact hnn.moved hr (.start (List.mem_append_left _ hn))
  -- a pair is moved on its right side, where the relocation keeps free variables apart
  free := by
    intro v v'' hv
    obtain ⟨v', hv, hlive, hφ⟩ := hv
    obtain ⟨hleft, htrusts, ls, hc⟩ := h.free hv
    have htrusts' := hr.trusts_image h.right.orderly hlive htrusts
    obtain ⟨x, hx, hc'⟩ := hr.var hlive hc
    rw [hφ] at hx htrusts'
    cases hx
    exact ⟨hleft, htrusts', _, hc'⟩
  unique_left := by
    intro v x y hx hy
    obtain ⟨v', hv, -, hx⟩ := hx
    obtain ⟨v'', hv', -, hy⟩ := hy
    rw [h.unique_left hv hv', hy] at hx
    cases hx
    rfl
  unique_right := by
    intro x y v'' hx hy
    obtain ⟨v, hx, hlive, hφ⟩ := hx
    obtain ⟨v', hy, hlive', hφ'⟩ := hy
    obtain ⟨ls, hc⟩ := (h.free hx).2.2
    obtain ⟨ks, hc'⟩ := (h.free hy).2.2
    have hvv : v = v' := hr.var_injective hlive hlive' hc hc' (hφ.trans hφ'.symm)
    subst hvv
    exact h.unique_right hx hy

/-- A collection moves everything that the threads hold, and they go on from there. -/
theorem Course.collect (h : Course β m₀ m) (hc : m.collect = .ok m') : ∃ γ, Course γ m₀ m' := by
  obtain ⟨φ, hr⟩ := Machine.relocation_of_collect hc
  obtain ⟨m₁, hc₁, ho⟩ := h.right.orderly.collect h.right.waits
  rw [hc] at hc₁
  cases hc₁
  refine ⟨movedBy β m φ, h.toAbreast.moved hr ⟨ho, Machine.waits_collect h.right.waits hc⟩, ?_, ?_⟩
  · rw [hr.threads]
    refine List.forall₂_map_right_iff.mpr (forall₂_imp_right h.threads fun t ht _ hs => ?_)
    exact hs.moved hr ht
  · intro t' ht'
    rw [hr.threads] at ht'
    obtain ⟨t, ht, rfl⟩ := List.mem_map.mp ht'
    exact h.bindFree t ht

/-! ### A run -/

/-- The queue does not matter. -/
theorem Course.setReady (h : Course β m₀ m) {s : Scheduler}
    (hthreads : s.threads = m.scheduler.threads) (hspawned : s.spawned = m.scheduler.spawned) :
    Course β m₀ { m with scheduler := s } := by
  have hpoised : Poised { m with scheduler := s } := by
    refine ⟨h.right.orderly.of_heap_eq rfl rfl rfl rfl h.right.orderly.roots ?_, ?_⟩
    · intro t ht
      exact h.right.orderly.threads t (hthreads ▸ ht)
    · show Waits m.heap s.threads s.spawned
      rw [hthreads, hspawned]
      exact h.right.waits
  refine ⟨{ h.toAbreast with right := hpoised, spawned := ?_ }, ?_, ?_⟩
  · show m₀.scheduler.spawned = s.spawned
    rw [hspawned]
    exact h.spawned
  · show List.Forall₂ _ m₀.scheduler.threads s.threads
    rw [hthreads]
    exact h.threads
  · intro t ht
    exact h.bindFree t (hthreads ▸ ht)

theorem Course.runNext (h : Course β m₀ m) {ran : Bool} (hr : m.runNext = .ok (ran, m')) :
    ∃ γ, Course γ m₀ m' := by
  rcases Machine.runNext_slices hr with ⟨-, s, hnext, rfl⟩ | ⟨-, t, s, after, t', hnext, hturn, hor⟩
  · obtain ⟨hthreads, hspawned, -⟩ := Machine.nextFrom_cases hnext
    exact ⟨β, h.setReady hthreads hspawned⟩
  · obtain ⟨hthreads, hspawned, hmem⟩ := Machine.nextFrom_cases hnext
    obtain ⟨ht, hstate⟩ := hmem t rfl
    have h₂ := (h.setReady hthreads hspawned).slice (hthreads ▸ ht) hstate hturn
    rcases hor with rfl | hc
    · exact ⟨β, h₂⟩
    · exact h₂.collect hc

/-- How a thread stands that has met its fate. -/
inductive EndsAs (β : VarRef → VarRef → Prop) (b : View) : Ending → ThreadState → Prop where
  | done : EndsAs β b .done .terminated
  | blocked {v : VarRef} : EndsAs β b .blocked (.waiting v)
  | raised {e₀ e : Node} {after : Machine} : Resembles β after.view b e₀ e →
      EndsAs β b (.raised e₀ after) (.failed e)

/-- The thread has met the fate `F`. -/
def Met (β : VarRef → VarRef → Prop) (m₀ : Machine) (b : View)
    (F : Except Fault (Thread × Ending)) (t : Thread) : Prop :=
  ∃ u e, F = .ok (u, e) ∧ Peers β m₀.view b u t ∧ EndsAs β b e t.state

/-- A thread that is not runnable has met its fate: if it waits, then its call suspends. -/
theorem Course.met (h : Course β m₀ m) (ht : t ∈ m.scheduler.threads) (hidle : t.state ≠ .runnable)
    (hs : Stands β m₀ m.view F t) : Met β m₀ m.view F t := by
  cases hs with
  | done hs hf hpeers =>
    refine ⟨_, _, hf, hpeers, ?_⟩
    rw [hs]
    exact .done
  | failed hs hf hpeers he =>
    refine ⟨_, _, hf, hpeers, ?_⟩
    rw [hs]
    exact .raised he
  | @going u hactive hu hf hpeers =>
    cases hs : t.state with
    | runnable => exact absurd hs hidle
    | terminated => rw [hs] at hactive; cases hactive
    | failed e => rw [hs] at hactive; cases hactive
    | waiting v =>
      -- the call that it waits in suspends here, and so it does at the start
      obtain ⟨i, operands, hi, hops, hawaits⟩ := h.right.waits.blocked t ht hs
      obtain ⟨ls, hv⟩ := (h.right.waits.parked t ht hs).unbound
      obtain ⟨w, hcall⟩ := Machine.call_suspends h.right.waits hawaits hv
      have hop : i.builtin ≠ .bind := h.bindFree t ht i (List.mem_of_getElem? hi)
      obtain ⟨ns, r, hiu, hns, hr, hcor⟩ := h.next_call hpeers hi hop hops hcall
      rw [Machine.fate_call hu hiu hns, hr] at hf
      cases hcor with
      | suspend =>
        refine ⟨u, .blocked, hf.symm, hpeers, ?_⟩
        rw [hs]
        exact .blocked

/-- A run takes every thread to its fate. -/
theorem Course.run (h : Course β m₀ m₀) (hm : Machine.Reachable m₀) {report : Machine.Report}
    (hrun : m₀.run = .ok (report, m)) :
    ∃ γ, Abreast γ m₀ m ∧ (∀ t ∈ m.scheduler.threads, t.BindFree) ∧
      List.Forall₂ (fun t₀ t => Met γ m₀ m.view (m₀.fate t₀) t) m₀.scheduler.threads
        m.scheduler.threads := by
  obtain ⟨count, hturns, -⟩ := Machine.turns_of_run hrun
  obtain ⟨γ, hc⟩ : ∃ γ, Course γ m₀ m := by
    refine Machine.turns_induct (P := fun m => ∃ γ, Course γ m₀ m) ?_ ⟨β, h⟩ hturns
    intro m m' ran hm hr
    obtain ⟨γ, hm⟩ := hm
    exact hm.runNext hr
  have hidle := Machine.idle_of_turns hm hturns
  refine ⟨γ, hc.toAbreast, hc.bindFree, forall₂_imp_right hc.threads fun t ht t₀ hs => ?_⟩
  exact hc.met ht (hidle t ht) hs

end Dataflow
