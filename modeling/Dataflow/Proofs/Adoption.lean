import Dataflow.Proofs.Assignment
import Dataflow.Proofs.Foreign
import Dataflow.Proofs.Residence

/-! # Foreign atoms and collections

  From one collection to the next a value with a foreign atom in it stays foreign: what has been
  written stays, so the ownership check finds the same atom again. A collection does not copy atoms
  but interns their contents in the machine's own new table. So it adopts all foreign atoms that it
  comes by, in values that are pinned and in those of threads: afterwards the check has nothing
  against them, and they are the atoms that the machine makes of the same contents.
-/

open Relation (ReflTransGen)

namespace Dataflow

theorem findSomeM?_congr_ok {α β : Type} {f g : α → Except Fault (Option β)} {xs : List α}
    {found : Option β} (hfg : ∀ x ∈ xs, ∀ b, f x = .ok b → g x = .ok b)
    (hf : xs.findSomeM? f = .ok found) : xs.findSomeM? g = .ok found := by
  induction xs with
  | nil => exact hf
  | cons x xs ih =>
    rw [findSomeM?_cons] at hf ⊢
    obtain ⟨first, hx, hf⟩ := bind_eq_ok.mp hf
    rw [hfg x (List.mem_cons_self ..) first hx, ok_bind]
    cases first with
    | some b => exact hf
    | none => exact ih (fun y hy => hfg y (List.mem_cons_of_mem _ hy)) hf

namespace Heap

variable {h h' : Heap} {owner : MachineId}

theorem Grows.recordCount_le (hg : h.Grows h') : h.recordCount ≤ h'.recordCount := by
  apply Nat.le_of_not_lt
  intro hlt
  obtain ⟨r, hr⟩ := lt_recordCount_iff.mp hlt
  exact Nat.lt_irrefl _ (lt_recordCount_iff.mpr ⟨r, hg.record hr⟩)

/-- The check finds the same in a heap that has grown, if the value does not dangle. -/
theorem Grows.foreign? (hg : h.Grows h') {k k' : Nat} (hk : k ≤ k') {n : Node}
    (hin : ∀ x, h.Parts n x → h.InRange x) {found : Option MachineId}
    (hn : h.foreign? owner k n = .ok found) : h'.foreign? owner k' n = .ok found := by
  induction k generalizing k' n found with
  | zero => cases hn
  | succ k ih =>
    obtain ⟨k', rfl⟩ : ∃ j, k' = j + 1 := ⟨k' - 1, by omega⟩
    cases n with
    | record ref =>
      obtain ⟨r, hr⟩ := record_of_inRange (hin _ .refl)
      rw [foreign?_record hr] at hn
      rw [foreign?_record (hg.record hr)]
      refine findSomeM?_congr_ok (fun x hx b hb => ih (by omega) (fun y hy => ?_) hb) hn
      have hpart : h.Part (.record ref) x := ⟨ref, r, rfl, hr, hx⟩
      exact hin y (ReflTransGen.head hpart hy)
    | _ => exact hn

end Heap

namespace Machine

variable {m m' m'' : Machine} {n : Node}

/-! ### From one collection to the next -/

theorem owns_continues (hc : Continues m m') (hin : ∀ x, m.heap.Parts n x → m.heap.InRange x)
    {answer : Except Refusal Unit} (ho : m.owns n = .ok answer) : m'.owns n = .ok answer := by
  obtain ⟨found, hf, ho⟩ := bind_eq_ok.mp ho
  have hle := hc.heap.recordCount_le
  have hf' : m'.heap.foreignOwner? m'.id n = .ok found := by
    unfold Heap.foreignOwner? at hf ⊢
    rw [hc.id]
    exact hc.heap.foreign? (by omega) hin hf
  rw [owns, hf', ok_bind, hc.id]
  exact ho

theorem roots_of_change (hc : Change m m') : m.roots <+: m'.roots := by
  have hbind : ∀ {k : Nat} {m m' : Machine} {v : VarRef} {x : Node},
      bindWithin k m v x = .ok (.ok m') → m'.roots = m.roots := fun hb =>
    bindWithin_induct (R := fun m m' => m'.roots = m.roots) (fun _ => rfl)
      (fun h₁ h₂ => h₂.trans h₁) (fun _ _ => rfl) (fun _ _ => rfl) hb
  cases hc with
  | bind hb => exact hbind hb ▸ List.prefix_refl _
  | pin n => exact List.prefix_append _ _
  | _ => exact List.prefix_refl _

theorem roots_putBack (m : Machine) (t : Thread) : (m.putBack t).roots = m.roots := by
  unfold putBack
  split
  · split <;> rfl
  · rfl

/-- A turn takes no root away. -/
theorem roots_of_turn {k : Nat} {t t' : Thread} (hb : m.heap.Balanced)
    (ht : turn k m t = .ok (m', t')) : m.roots <+: m'.roots := by
  refine (turn_induct (P := fun m' => m'.heap.Balanced ∧ m.roots <+: m'.roots) (fun h => h.1)
    ?_ ?_ ⟨hb, List.prefix_refl _⟩ ht).2
  · rintro m₁ m₂ ⟨hb₁, hroots⟩ hc
    refine ⟨fun hr => ?_, hroots.trans (roots_of_change hc)⟩
    rcases record_of_change hc hr with hr | hnew
    · exact hb₁ hr
    · exact hnew.balanced
  · rintro m₁ heap v id parked ⟨hb₁, hroots⟩ ha
    refine ⟨fun hr => ?_, hroots⟩
    rw [Heap.record_congr (Heap.records_addListener ha)] at hr
    exact hb₁ hr

/-- The second machine continues the first with all its roots, or has collected since. -/
def Retains (m m' : Machine) : Prop :=
  Continues m m' ∧ m.roots <+: m'.roots ∨ m.atoms.id.generation < m'.atoms.id.generation

theorem Retains.of_eq (hid : m'.id = m.id) (hatoms : m'.atoms = m.atoms) (hheap : m'.heap = m.heap)
    (hroots : m'.roots = m.roots) : Retains m m' :=
  .inl ⟨.of_eq hid hatoms hheap, hroots ▸ List.prefix_refl _⟩

theorem Retains.trans (h₁ : Retains m m') (h₂ : Retains m' m'') : Retains m m'' := by
  rcases h₁ with ⟨hc₁, hp₁⟩ | hlt₁
  · rcases h₂ with ⟨hc₂, hp₂⟩ | hlt₂
    · exact .inl ⟨hc₁.trans hc₂, hp₁.trans hp₂⟩
    · rw [hc₁.table] at hlt₂
      exact .inr hlt₂
  · rcases h₂ with ⟨hc₂, -⟩ | hlt₂
    · rw [← hc₂.table] at hlt₁
      exact .inr hlt₁
    · exact .inr (Nat.lt_trans hlt₁ hlt₂)

theorem retains_collect (hc : m.collect = .ok m') : Retains m m' := by
  right
  rw [generation_collect hc]
  exact Nat.lt_succ_self _

/-- A turn of any length of the next thread. -/
theorem retains_slice (hw : Waits m.heap m.scheduler.threads m.scheduler.spawned) {s : Scheduler}
    {t t' : Thread} {after : Machine} {k : Nat} (hnext : m.scheduler.next? = (some t, s))
    (ht : turn k { m with scheduler := s } t = .ok (after, t')) : Retains m (after.putBack t') := by
  left
  refine ⟨(continues_of_slice hw hnext ht).2, ?_⟩
  rw [roots_putBack]
  exact roots_of_turn (m := { m with scheduler := s }) hw.balanced ht

theorem retains_runNext (hw : Waits m.heap m.scheduler.threads m.scheduler.spawned) {ran : Bool}
    (hr : m.runNext = .ok (ran, m')) : Retains m m' := by
  rcases runNext_slices hr with ⟨-, s, -, rfl⟩ | ⟨-, t, s, after, t', hn, hturn, hor⟩
  · exact .of_eq rfl rfl rfl rfl
  · have hslice := retains_slice hw hn hturn
    rcases hor with rfl | hc
    · exact hslice
    · exact hslice.trans (retains_collect hc)

theorem HostStep.retains (hstep : HostStep m m')
    (hw : Waits m.heap m.scheduler.threads m.scheduler.spawned) : Retains m m' := by
  refine (hstep.preserves (P := fun m' =>
    Waits m'.heap m'.scheduler.threads m'.scheduler.spawned ∧ Retains m m')
    (fun h => h.1.balanced) ?_ ?_ ?_ ?_ ?_ ⟨hw, .of_eq rfl rfl rfl rfl⟩).2
  · rintro m₁ m₂ ⟨hw₁, hret⟩ hc
    exact ⟨hw₁.change hc, hret.trans (.inl ⟨continues_of_change hc, roots_of_change hc⟩)⟩
  · rintro m₁ m₂ code registers id ⟨hw₁, hret⟩ hs
    refine ⟨waits_spawn hw₁ hs, hret.trans ?_⟩
    obtain ⟨-, -, hs⟩ := bind_eq_ok.mp hs
    cases hs
    exact .of_eq rfl rfl rfl rfl
  · rintro m₁ m₂ id ⟨hw₁, hret⟩ hk
    refine ⟨waits_kill hw₁ hk, hret.trans ?_⟩
    obtain ⟨s, -, hk⟩ := bind_eq_ok.mp hk
    cases hk
    exact .of_eq rfl rfl rfl rfl
  · rintro m₁ m₂ ran ⟨hw₁, hret⟩ hr
    exact ⟨waits_runNext hw₁ hr, hret.trans (retains_runNext hw₁ hr)⟩
  · rintro m₁ m₂ ⟨hw₁, hret⟩ hc
    exact ⟨waits_collect hw₁ hc, hret.trans (retains_collect hc)⟩

theorem root?_of_prefix {slot : Nat} (hp : m.roots <+: m'.roots)
    (hroot : m.root? slot = some n) : m'.root? slot = some n := by
  obtain ⟨more, he⟩ := hp
  unfold root? at hroot ⊢
  rw [← he, List.getElem?_append_left (List.getElem?_eq_some_iff.mp hroot).1]
  exact hroot

/-- A slot keeps its node until the next collection. -/
theorem root_of_span (hspan : ReflTransGen SpanStep m m')
    (hw : Waits m.heap m.scheduler.threads m.scheduler.spawned) {slot : Nat}
    (hroot : m.root? slot = some n) : m'.root? slot = some n := by
  induction hspan with
  | refl => exact hroot
  | @tail m₁ m₂ hspan hstep ih =>
    obtain ⟨hw₁, -⟩ := continues_of_span hspan hw
    obtain ⟨-, hcont⟩ := hstep.continues hw₁
    have hret : Retains m₁ m₂ := by
      cases hstep with
      | host hhost hid => exact hhost.retains hw₁
      | slice k hnext ht => exact retains_slice hw₁ hnext ht
    rcases hret with ⟨-, hprefix⟩ | hlt
    · exact root?_of_prefix hprefix ih
    · rw [hcont.table] at hlt
      exact absurd hlt (Nat.lt_irrefl _)

/-! ### A collection -/

/-- The table of a machine makes atoms of the machine's own. -/
theorem Reachable.table (hm : Reachable m) : m.atoms.id.owner = m.id := by
  -- no step hands the machine or its table to another owner
  have hcontinues : ∀ {m m' : Machine}, m.atoms.id.owner = m.id → Continues m m' →
      m'.atoms.id.owner = m'.id := by
    intro m m' htable hc
    rw [hc.table, hc.id]
    exact htable
  have hcollect : ∀ {m m' : Machine}, m.atoms.id.owner = m.id → m.collect = .ok m' →
      m'.atoms.id.owner = m'.id := by
    intro m m' htable hc
    obtain ⟨φ, hr⟩ := relocation_of_collect hc
    rw [hr.table, hr.rest.1]
    exact htable
  refine (hm.invariant (P := fun m => Waits m.heap m.scheduler.threads m.scheduler.spawned ∧
    m.atoms.id.owner = m.id) (fun id c => ⟨waits_new id c, rfl⟩) (fun h => h.1.balanced)
    ?_ ?_ ?_ ?_ ?_).2
  · rintro m m' ⟨hw, htable⟩ hc
    exact ⟨hw.change hc, hcontinues htable (continues_of_change hc)⟩
  · rintro m m' code registers id ⟨hw, htable⟩ hs
    refine ⟨waits_spawn hw hs, ?_⟩
    obtain ⟨-, -, hs⟩ := bind_eq_ok.mp hs
    cases hs
    exact htable
  · rintro m m' id ⟨hw, htable⟩ hk
    refine ⟨waits_kill hw hk, ?_⟩
    obtain ⟨s, -, hk⟩ := bind_eq_ok.mp hk
    cases hk
    exact htable
  · rintro m m' ran ⟨hw, htable⟩ hr
    refine ⟨waits_runNext hw hr, ?_⟩
    -- a turn ends as it is, or with a collection
    rcases runNext_span hw hr with hc | ⟨m₁, -, hc, hcol⟩
    · exact hcontinues htable hc
    · exact hcollect (hcontinues htable hc) hcol
  · rintro m m' ⟨hw, htable⟩ hc
    exact ⟨waits_collect hw hc, hcollect htable hc⟩

/-- What the image of a node holds is the image of what is alive. -/
theorem Relocation.holds_before {φ : Node → Node} (hr : Relocation m m' φ) (hn : m.Live n) {x' : Node}
    (hx : m'.heap.Holds (φ n) x') : ∃ x, m.Live x ∧ φ x = x' := by
  unfold Heap.Holds at hx
  induction hx with
  | refl => exact ⟨n, hn, rfl⟩
  | tail _ hstep ih =>
    obtain ⟨y, hy, rfl⟩ := ih
    rcases hstep with ⟨ref', r', he, hr', hmem⟩ | ⟨v, -, hv⟩
    · obtain ⟨ref, r, hlive, href, -, him⟩ := hr.record_before hr'
      obtain ⟨x, hx, rfl⟩ := him.mem_edges hmem
      exact ⟨x, .edge hlive href hx, rfl⟩
    · -- no variable of the new heap is bound
      obtain ⟨w, ls, -, -, -, he⟩ := hr.cell_before hv
      cases he

/-- After a collection the value in a slot holds atoms of the machine's own table only. -/
theorem adopted_of_collect (htable : m.atoms.id.owner = m.id) (hc : m.collect = .ok m')
    {slot : Nat} (hroot : m.root? slot = some n) :
    ∃ n', m'.root? slot = some n' ∧ (∀ a, n = .atom a → n' = .atom ⟨m'.atoms.id, a.content⟩) ∧
      ∀ a, m'.heap.Holds n' (.atom a) → a.owner = m'.id ∧ m'.atoms.find? a.content = some a := by
  obtain ⟨φ, hr⟩ := relocation_of_collect hc
  have hlive : m.Live n := .start (List.mem_append_left _ (List.mem_of_getElem? hroot))
  refine ⟨φ n, ?_, ?_, fun a ha => ?_⟩
  · unfold root? at hroot ⊢
    rw [hr.roots, List.getElem?_map, hroot]
    rfl
  · rintro a rfl
    exact (hr.atom hlive).1
  · obtain ⟨x, hx, he⟩ := hr.holds_before hlive ha
    have hlisted := hr.listed_image hx
    rw [he] at hlisted
    refine ⟨?_, hlisted a rfl⟩
    rw [Atom.owner, (listed_atom.mp hlisted).2, hr.table, hr.rest.1]
    exact htable

/-- Where all atoms among the parts belong to the machine, the check has nothing to refuse. -/
theorem owns_of_own (hown : ∀ a, m.heap.Parts n (.atom a) → a.owner = m.id) :
    m.owns n = .ok (.ok ()) ∨ m.owns n = .error .endless := by
  cases ho : m.owns n with
  | error e =>
    obtain ⟨rfl, -⟩ := owns_eq_error_iff.mp ho
    exact .inr rfl
  | ok answer =>
    rw [(owns_exact_on_parts ho).1.mpr hown]
    exact .inl rfl

theorem owns_atom {a : Atom} (ha : a.owner = m.id) : m.owns (.atom a) = .ok (.ok ()) := by
  simp [owns, Heap.foreignOwner?, Heap.foreign?, ha]

/-- A foreign value in a slot of a reachable machine. Until the next collection it stays there, and
    stays foreign. A collection adopts it: the atoms in it belong to the machine, and are those of its
    table, so that the check can refuse it no more. An atom in the slot has become the atom that the
    machine makes of the content, and is equal to it. -/
theorem Reachable.collection_adopts (hm : Reachable m) {slot : Nat} (hroot : m.root? slot = some n)
    {found : MachineId} (ho : m.owns n = .ok (.error (.foreignValue m.id found))) :
    (∀ m', (∀ x, m.heap.Parts n x → m.heap.InRange x) → ReflTransGen SpanStep m m' →
      m'.root? slot = some n ∧ m'.owns n = .ok (.error (.foreignValue m'.id found))) ∧
    ∀ m', m.collect = .ok m' → ∃ n', m'.root? slot = some n' ∧
      (m'.owns n' = .ok (.ok ()) ∨ m'.owns n' = .error .endless) ∧
      (∀ a, m'.heap.Holds n' (.atom a) → a.owner = m'.id ∧ m'.atoms.find? a.content = some a) ∧
      ∀ a, n = .atom a → m'.newAtom a.content = (n', m') ∧ m'.owns n' = .ok (.ok ()) ∧
        m'.tryEquals n' (m'.newAtom a.content).1 = .ok (.ok true) := by
  refine ⟨fun m' hin hspan => ?_, fun m' hc => ?_⟩
  · obtain ⟨-, hcont⟩ := continues_of_span hspan hm.waits
    have ho' := owns_continues hcont hin ho
    rw [← hcont.id] at ho'
    exact ⟨root_of_span hspan hm.waits hroot, ho'⟩
  · obtain ⟨n', hroot', hatom, hown⟩ := adopted_of_collect hm.table hc hroot
    refine ⟨n', hroot', owns_of_own fun a ha => (hown a ha.holds).1, hown, ?_⟩
    intro a ha
    obtain rfl := hatom a ha
    obtain ⟨howner, hfind⟩ := hown _ .refl
    have hnew : m'.newAtom a.content = (.atom ⟨m'.atoms.id, a.content⟩, m') := by
      rw [newAtom_eq, AtomTable.insert, if_pos (AtomTable.find?_eq_some_iff.mp hfind).1]
    have howns := owns_atom howner
    refine ⟨hnew, howns, ?_⟩
    have heq := equals_atoms howner howner
    rw [decide_eq_true rfl] at heq
    rw [hnew, tryEquals, howns, heq]
    rfl

/-- A machine whose root is an atom of another machine. -/
def visited : Machine := { id := ⟨0⟩, roots := [.atom stray] }

theorem reachable_visited : Reachable visited :=
  (Reachable.new ⟨0⟩ {}).step (.addRoot _ (.atom stray))

theorem visited_adopts : Reachable visited ∧
    visited.owns (.atom stray) = .ok (.error (.foreignValue ⟨0⟩ ⟨1⟩)) ∧
    ∃ m' n', visited.collect = .ok m' ∧ m'.root? 0 = some n' ∧ m'.owns n' = .ok (.ok ()) ∧
      m'.tryEquals n' (m'.newAtom "stray").1 = .ok (.ok true) := by
  have ho : visited.owns (.atom stray) = .ok (.error (.foreignValue visited.id ⟨1⟩)) := rfl
  have hroot : visited.root? 0 = some (.atom stray) := rfl
  obtain ⟨-, hcollect⟩ := reachable_visited.collection_adopts hroot ho
  obtain ⟨m', hc⟩ : ∃ m', visited.collect = .ok m' := ⟨_, rfl⟩
  obtain ⟨n', hroot, -, -, hatom⟩ := hcollect m' hc
  obtain ⟨-, howns, hsame⟩ := hatom stray rfl
  exact ⟨reachable_visited, ho, m', n', hc, hroot, howns, hsame⟩

end Machine

end Dataflow
