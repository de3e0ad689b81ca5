import Dataflow.Proofs.Adoption
import Dataflow.Proofs.Interning
import Dataflow.Proofs.Lookup

/-! # Exceptions

  An exception is the value `error(kernel(kind argument …) debug:unit)`, made of atoms of the
  machine's present table. `Machine.IsException` says so of a node. Its kind can be read back, and
  the form is kept: by what happens from one collection to the next, since records are never
  written again, and by a collection, which moves the records and takes their atoms over into the
  new table.

  A host finds an exception again in the slot where it has pinned it, and in the thread that has
  failed with it. What holds of a pinned node, or of a thread, in every later machine is proved here
  for any property that survives steps and collections, and exceptions are one instance.

  Exceptions come from calls, too. `Machine.Complaint` lists what a call can complain of, and every
  exception that a builtin raises carries such a complaint.

  Main statement: the kind of every exception that is made or raised can be read, at once and in
  every later machine in which a slot or a failed thread still holds the exception.
-/

open Relation (ReflTransGen)

namespace Dataflow

/-! ### The form of an exception -/

namespace Record

/-- The record `error(detail debug:unit)`. -/
def exception (t : TableId) (detail : Node) : Record :=
  ⟨.atom ⟨t, "error"⟩, .features [.int 1, .literal (.atom ⟨t, "debug"⟩)], [detail, .unit]⟩

/-- The record `kernel(kind argument …)`. -/
def exceptionDetail (t : TableId) (kind : String) (arguments : List Node) : Record :=
  ⟨.atom ⟨t, "kernel"⟩, .tuple, .atom ⟨t, kind⟩ :: arguments⟩

theorem lookupNumber_exception (t : TableId) (detail : Node) :
    (exception t detail).lookupNumber 1 = some detail := rfl

theorem lookupNumber_exceptionDetail (t : TableId) (kind : String) (arguments : List Node) :
    (exceptionDetail t kind arguments).lookupNumber 1 = some (.atom ⟨t, kind⟩) := rfl

/-- The image of the outer record, if its atoms are taken over into another table. -/
theorem IsImage.exception {φ : Node → Node} {t t' : TableId} {detail : Node} {r' : Record}
    (him : (exception t detail).IsImage φ r')
    (herror : φ (.atom ⟨t, "error"⟩) = .atom ⟨t', "error"⟩)
    (hdebug : φ (.atom ⟨t, "debug"⟩) = .atom ⟨t', "debug"⟩)
    (hone : φ (.int 1) = .int 1) (hunit : φ .unit = .unit) : r' = .exception t' (φ detail) := by
  obtain ⟨label', arity', fields'⟩ := r'
  obtain ⟨hlabel, harity, hfields⟩ := him
  have hlabel' : label' = .atom ⟨t', "error"⟩ :=
    Literal.toNode_injective (hlabel.trans herror)
  have hfields' : fields' = [φ detail, .unit] := hfields.trans (by rw [← hunit]; rfl)
  have harity' : arity' = .features [.int 1, .literal (.atom ⟨t', "debug"⟩)] := by
    rcases harity with ⟨hcontra, -⟩ | ⟨names, names', hnames, hnames', hmap⟩
    · cases hcontra
    · cases hnames
      dsimp only at hnames'
      rw [hnames']
      have hnodes : names'.map Feature.toNode =
          [Feature.int 1, .literal (.atom ⟨t', "debug"⟩)].map Feature.toNode := by
        rw [hmap]
        exact congrArg₂ (fun x y => [x, y]) hone hdebug
      exact congrArg Arity.features
        (List.map_injective_iff.mpr (fun _ _ => Feature.toNode_injective) hnodes)
  rw [hlabel', harity', hfields']
  rfl

/-- The image of the inner record, if its atoms are taken over into another table. -/
theorem IsImage.exceptionDetail {φ : Node → Node} {t t' : TableId} {kind : String}
    {arguments : List Node} {r' : Record}
    (him : (exceptionDetail t kind arguments).IsImage φ r')
    (hkernel : φ (.atom ⟨t, "kernel"⟩) = .atom ⟨t', "kernel"⟩)
    (hkind : φ (.atom ⟨t, kind⟩) = .atom ⟨t', kind⟩) :
    r' = .exceptionDetail t' kind (arguments.map φ) := by
  obtain ⟨label', arity', fields'⟩ := r'
  obtain ⟨hlabel, harity, hfields⟩ := him
  have hlabel' : label' = .atom ⟨t', "kernel"⟩ :=
    Literal.toNode_injective (hlabel.trans hkernel)
  have hfields' : fields' = .atom ⟨t', kind⟩ :: arguments.map φ :=
    hfields.trans (by rw [← hkind]; rfl)
  have harity' : arity' = .tuple := by
    rcases harity with ⟨-, htuple⟩ | ⟨names, names', hcontra, -⟩
    · exact htuple
    · cases hcontra
  rw [hlabel', harity', hfields']
  rfl

end Record

namespace Machine

variable {m m' : Machine} {kind : String} {arguments : List Node} {e : Node}

/-- The node stands for the exception `error(kernel(kind argument …) debug:unit)`, made of atoms of
    the machine's table. -/
def IsException (m : Machine) (kind : String) (arguments : List Node) (e : Node) : Prop :=
  ∃ outer detail, m.heap.deref e = .ok (.record outer) ∧
    m.heap.record outer = .ok (.exception m.atoms.id (.record detail)) ∧
    m.heap.record detail = .ok (.exceptionDetail m.atoms.id kind arguments)

theorem isException_newException (m : Machine) (kind : String) (arguments : List Node) :
    (m.newException kind arguments).2.IsException kind arguments
      (m.newException kind arguments).1 := by
  obtain ⟨detail, outer, he, houter, hdetail⟩ := m.records_newException kind arguments
  have htable : (m.newException kind arguments).2.atoms.id = m.atoms.id := by
    rw [contents_newException]
    simp only [AtomTable.insert_id]
  refine ⟨outer, detail, ?_, ?_, ?_⟩
  · rw [he]
    exact Heap.deref_of_value rfl
  · rw [htable]
    exact houter
  · rw [htable]
    exact hdetail

theorem firstFieldOf_record (label : String) {n : Node} {ref : RecordRef} {r : Record} {a : Atom}
    (hd : m.heap.deref n = .ok (.record ref)) (hr : m.heap.record ref = .ok r)
    (hl : r.label = .atom a) (ha : a.content = label) :
    m.firstFieldOf label n = .ok (r.lookupNumber 1) := by
  simp only [firstFieldOf, deref, hd, ok_bind, hr, hl, if_pos ha]
  rfl

/-- The kind of an exception can be read back. -/
theorem IsException.exceptionKind (he : m.IsException kind arguments e) :
    m.exceptionKind e = .ok (some kind) := by
  obtain ⟨outer, detail, hd, houter, hdetail⟩ := he
  have hfirst := firstFieldOf_record "error" hd houter rfl rfl
  have hsecond := firstFieldOf_record "kernel" (Heap.deref_of_value rfl) hdetail rfl rfl
  rw [Record.lookupNumber_exception] at hfirst
  rw [Record.lookupNumber_exceptionDetail] at hsecond
  simp only [Machine.exceptionKind, hfirst, ok_bind, hsecond, deref]
  rw [Heap.deref_of_value rfl]
  rfl

/-- An exception stays as it is until the next collection. -/
theorem IsException.continues (he : m.IsException kind arguments e) (hc : Continues m m') :
    m'.IsException kind arguments e := by
  obtain ⟨outer, detail, hd, houter, hdetail⟩ := he
  refine ⟨outer, detail, hc.heap.deref_value hd rfl, ?_, ?_⟩
  · rw [hc.table]
    exact hc.heap.record houter
  · rw [hc.table]
    exact hc.heap.record hdetail

/-- A collection moves an exception that is alive, with its arguments. -/
theorem IsException.relocate {φ : Node → Node} (he : m.IsException kind arguments e)
    (hr : Relocation m m' φ) (hlive : m.Live e) :
    m'.IsException kind (arguments.map φ) (φ e) := by
  obtain ⟨outer, detail, hd, houter, hdetail⟩ := he
  have hlo : m.Live (.record outer) := hlive.deref hd
  have hparts : ∀ {n : Node}, n ∈ (Record.exception m.atoms.id (.record detail)).edges → m.Live n :=
    fun hn => .edge hlo houter hn
  have hld : m.Live (.record detail) := hparts (by simp [Record.edges, Record.exception])
  have hparts' : ∀ {n : Node}, n ∈ (Record.exceptionDetail m.atoms.id kind arguments).edges →
      m.Live n := fun hn => .edge hld hdetail hn
  -- the two records go to new places, and there they are of the same form
  obtain ⟨outer', r, hφ, houter', him⟩ := hr.record hlo houter
  obtain ⟨detail', r', hφ', hdetail', him'⟩ := hr.record hld hdetail
  have hr₁ : r = .exception m'.atoms.id (.record detail') := by
    rw [← hφ']
    refine him.exception (hr.atom (hparts ?_)).1 (hr.atom (hparts ?_)).1 (hr.inline (hparts ?_) rfl)
      (hr.inline (hparts ?_) rfl)
    all_goals simp [Record.edges, Record.exception, Literal.toNode, Feature.toNode]
  have hr₂ : r' = .exceptionDetail m'.atoms.id kind (arguments.map φ) := by
    refine him'.exceptionDetail (hr.atom (hparts' ?_)).1 (hr.atom (hparts' ?_)).1
    all_goals simp [Record.edges, Record.exceptionDetail, Literal.toNode]
  refine ⟨outer', detail', ?_, hr₁ ▸ houter', hr₂ ▸ hdetail'⟩
  rw [← hφ]
  exact hr.deref_image hlive hd

/-! ### What is pinned -/

theorem ages_of_run (hw : Waits m.heap m.scheduler.threads m.scheduler.spawned)
    (hrun : ReflTransGen HostStep m m') :
    Waits m'.heap m'.scheduler.threads m'.scheduler.spawned ∧ Ages m m' := by
  induction hrun with
  | refl => exact ⟨hw, .inl (.of_eq rfl rfl rfl)⟩
  | tail _ hstep ih =>
    obtain ⟨hw₁, ha₁⟩ := ih
    obtain ⟨hw₂, ha₂⟩ := hstep.ages hw₁
    exact ⟨hw₂, ha₁.trans ha₂⟩

/-- What holds of a node holds of it until the next collection, and of its image after that. -/
structure Enduring (S : Machine → Node → Prop) : Prop where
  continues : ∀ {m m' : Machine} {n : Node}, S m n → Continues m m' → S m' n
  relocate : ∀ {m m' : Machine} {φ : Node → Node} {n : Node}, S m n → Relocation m m' φ →
    m.Live n → S m' (φ n)

/-- The node stands for an exception, and `Q` holds of its kind and the number of its arguments. -/
def ExceptionWith (Q : String → Nat → Prop) (m : Machine) (e : Node) : Prop :=
  ∃ kind arguments, Q kind arguments.length ∧ m.IsException kind arguments e

theorem enduring_exceptionWith (Q : String → Nat → Prop) : Enduring (ExceptionWith Q) where
  continues := by
    rintro m m' e ⟨kind, arguments, hq, he⟩ hc
    exact ⟨kind, arguments, hq, he.continues hc⟩
  relocate := by
    rintro m m' φ e ⟨kind, arguments, hq, he⟩ hr hlive
    refine ⟨kind, arguments.map φ, ?_, he.relocate hr hlive⟩
    rw [List.length_map]
    exact hq

/-- A slot holds a node for which `S` holds. -/
def Pins (S : Machine → Node → Prop) (slot : Nat) (m : Machine) : Prop :=
  ∃ n, m.root? slot = some n ∧ S m n

section Pins

variable {S : Machine → Node → Prop} {slot : Nat}

theorem Pins.continues (hS : Enduring S) (hp : m.Pins S slot) (hc : Continues m m')
    (hroots : m.roots <+: m'.roots) : m'.Pins S slot := by
  obtain ⟨n, hroot, hn⟩ := hp
  exact ⟨n, root?_of_prefix hroots hroot, hS.continues hn hc⟩

theorem Pins.collect (hS : Enduring S) (hp : m.Pins S slot) (hc : m.collect = .ok m') :
    m'.Pins S slot := by
  obtain ⟨n, hroot, hn⟩ := hp
  obtain ⟨φ, hr⟩ := relocation_of_collect hc
  have hlive : m.Live n := .start (List.mem_append_left _ (List.mem_of_getElem? hroot))
  refine ⟨φ n, ?_, hS.relocate hn hr hlive⟩
  rw [root?, hr.roots, List.getElem?_map]
  exact congrArg (Option.map φ) hroot

/-- A step of a host takes nothing out of a slot. -/
theorem Pins.step (hS : Enduring S) (hp : m.Pins S slot)
    (hw : Waits m.heap m.scheduler.threads m.scheduler.spawned) (hstep : HostStep m m') :
    m'.Pins S slot := by
  refine (hstep.preserves (P := fun m =>
    Waits m.heap m.scheduler.threads m.scheduler.spawned ∧ m.Pins S slot)
    (fun h => h.1.balanced) ?_ ?_ ?_ ?_ ?_ ⟨hw, hp⟩).2
  · rintro m₁ m₂ ⟨hw₁, hp₁⟩ hc
    exact ⟨hw₁.change hc, hp₁.continues hS (continues_of_change hc) (roots_of_change hc)⟩
  · rintro m₁ m₂ code registers id ⟨hw₁, hp₁⟩ hs
    refine ⟨waits_spawn hw₁ hs, ?_⟩
    obtain ⟨-, -, hs⟩ := bind_eq_ok.mp hs
    cases hs
    exact hp₁.continues hS (.of_eq rfl rfl rfl) (List.prefix_refl _)
  · rintro m₁ m₂ id ⟨hw₁, hp₁⟩ hk
    refine ⟨waits_kill hw₁ hk, ?_⟩
    obtain ⟨s, -, hk⟩ := bind_eq_ok.mp hk
    cases hk
    exact hp₁.continues hS (.of_eq rfl rfl rfl) (List.prefix_refl _)
  · rintro m₁ m₂ ran ⟨hw₁, hp₁⟩ hr
    refine ⟨waits_runNext hw₁ hr, ?_⟩
    rcases runNext_slices hr with ⟨-, s, -, rfl⟩ | ⟨-, t, s, after, t', hnext, hturn, hor⟩
    · exact hp₁.continues hS (.of_eq rfl rfl rfl) (List.prefix_refl _)
    · have hroots : m₁.roots <+: (after.putBack t').roots := by
        rw [roots_putBack]
        exact roots_of_turn (m := { m₁ with scheduler := s }) hw₁.balanced hturn
      have hput := hp₁.continues hS (continues_of_slice hw₁ hnext hturn).2 hroots
      rcases hor with rfl | hc
      · exact hput
      · exact hput.collect hS hc
  · rintro m₁ m₂ ⟨hw₁, hp₁⟩ hc
    exact ⟨waits_collect hw₁ hc, hp₁.collect hS hc⟩

/-- Nothing that a host does takes what it has pinned out of its slot. -/
theorem Pins.run (hS : Enduring S) (hp : m.Pins S slot)
    (hw : Waits m.heap m.scheduler.threads m.scheduler.spawned)
    (hrun : ReflTransGen HostStep m m') : m'.Pins S slot := by
  induction hrun with
  | refl => exact hp
  | tail hrun hstep ih => exact ih.step hS (ages_of_run hw hrun).1 hstep

end Pins

/-! ### What threads hold -/

/-- What holds of the threads of a machine holds of them later, if it holds of new threads too: a
    thread is woken, has its turn and is put back, and a collection moves what it holds. The numbers
    up to `given` are those of threads that are there already, or have been killed. -/
structure Upheld (given : Nat) (T : Machine → Thread → Prop) : Prop where
  continues : ∀ {m m' : Machine} {t : Thread}, T m t → Continues m m' → T m' t
  fresh : ∀ {m : Machine} {t : Thread}, given < t.id.number → t.state = .runnable → T m t
  wake : ∀ {m : Machine} {t : Thread} (ids : List ThreadId), T m t → T m (t.wakeIf ids)
  turn : ∀ {m m' : Machine} {t t' : Thread} {n : Nat}, T m t → t.state = .runnable →
    Machine.turn n m t = .ok (m', t') → t'.id = t.id → T m' t'
  ended : ∀ {m : Machine} {t : Thread}, T m t → T m t.ended
  relocate : ∀ {m m' : Machine} {φ : Node → Node} {t : Thread}, T m t → Relocation m m' φ →
    t ∈ m.scheduler.threads → T m' (t.relocate φ)

/-- The property holds of all threads, and the numbers up to `given` have been given out. -/
structure Upholds (T : Machine → Thread → Prop) (given : Nat) (m : Machine) : Prop where
  waits : Waits m.heap m.scheduler.threads m.scheduler.spawned
  given_le : given ≤ m.scheduler.spawned
  threads : ∀ t ∈ m.scheduler.threads, T m t

section Upholds

variable {T : Machine → Thread → Prop} {given : Nat}

theorem Upholds.change (hT : Upheld given T) (hm : m.Upholds T given) (hc : Change m m') :
    m'.Upholds T given := by
  obtain ⟨ids, hwake⟩ := wakes_of_changes (.single hc)
  obtain ⟨hthreads, hspawned⟩ := Scheduler.wake_threads hm.waits.nodup ids
  refine ⟨hm.waits.change hc, ?_, fun t ht => ?_⟩
  · rw [hwake, hspawned]
    exact hm.given_le
  · rw [hwake, hthreads] at ht
    obtain ⟨u, hu, rfl⟩ := List.mem_map.mp ht
    exact hT.wake ids (hT.continues (hm.threads u hu) (continues_of_change hc))

theorem Upholds.spawn (hT : Upheld given T) (hm : m.Upholds T given) {code : List Instruction}
    {registers : List Node} {id : ThreadId} (hs : m.spawn code registers = .ok (id, m')) :
    m'.Upholds T given := by
  have hw := waits_spawn hm.waits hs
  obtain ⟨-, -, hs⟩ := bind_eq_ok.mp hs
  cases hs
  have hle := hm.given_le
  refine ⟨hw, Nat.le_succ_of_le hle, fun t ht => ?_⟩
  rcases List.mem_append.mp ht with ht | ht
  · exact hT.continues (hm.threads t ht) (.of_eq rfl rfl rfl)
  · rw [List.mem_singleton.mp ht]
    exact hT.fresh (Nat.lt_succ_of_le hle) rfl

theorem Upholds.kill (hT : Upheld given T) (hm : m.Upholds T given) {id : ThreadId}
    (hk : m.kill id = .ok m') : m'.Upholds T given := by
  have hw := waits_kill hm.waits hk
  obtain ⟨s, hs, hk⟩ := bind_eq_ok.mp hk
  cases hk
  obtain ⟨-, rfl⟩ := Scheduler.kill_eq_ok hs
  refine ⟨hw, hm.given_le, fun t ht => ?_⟩
  exact hT.continues (hm.threads t (List.mem_of_mem_filter ht)) (.of_eq rfl rfl rfl)

theorem Upholds.collect (hT : Upheld given T) (hm : m.Upholds T given) (hc : m.collect = .ok m') :
    m'.Upholds T given := by
  obtain ⟨φ, hr⟩ := relocation_of_collect hc
  refine ⟨waits_collect hm.waits hc, ?_, fun t ht => ?_⟩
  · rw [hr.spawned]
    exact hm.given_le
  · rw [hr.threads] at ht
    obtain ⟨u, hu, rfl⟩ := List.mem_map.mp ht
    exact hT.relocate (hm.threads u hu) hr hu

/-- The next thread has its turn and is put back. The others are woken at most. -/
theorem Upholds.slice (hT : Upheld given T) (hm : m.Upholds T given) {s : Scheduler}
    {t t' : Thread} {after : Machine} {n : Nat} (hnext : m.scheduler.next? = (some t, s))
    (hturn : Machine.turn n { m with scheduler := s } t = .ok (after, t')) :
    (after.putBack t').Upholds T given := by
  obtain ⟨hthreads, hspawned, hfound⟩ := nextFrom_cases hnext
  obtain ⟨hmem, hstate⟩ := hfound t rfl
  have hw : Waits m.heap s.threads s.spawned := by
    rw [hthreads, hspawned]
    exact hm.waits
  have hrun : Waits.Running s.threads t.id := ⟨t, hthreads ▸ hmem, rfl, hstate⟩
  obtain ⟨⟨ids, hwake⟩, hid⟩ := wakes_of_turn (m := { m with scheduler := s }) hw hrun hturn
  obtain ⟨hwoken, hspawned'⟩ := Scheduler.wake_threads hw.nodup ids
  have hcont := continues_of_turn (m := { m with scheduler := s }) hw hrun hturn
  have htaken : Continues m { m with scheduler := s } := .of_eq rfl rfl rfl
  refine ⟨(continues_of_slice hm.waits hnext hturn).1, ?_, fun u hu => ?_⟩
  · rw [(sameThreads_putBack after t').spawned, hwake, hspawned', hspawned]
    exact hm.given_le
  · -- the thread is put back as its turn has left it, and the turn has woken others at most
    refine hT.continues ?_ (continues_putBack after t')
    rw [putBack_threads] at hu
    rcases Waits.mem_update hu with rfl | ⟨hu, -⟩
    · exact hT.ended (hT.turn (hT.continues (hm.threads t hmem) htaken) hstate hturn hid)
    · rw [hwake, hwoken] at hu
      obtain ⟨v, hv, rfl⟩ := List.mem_map.mp hu
      exact hT.wake ids (hT.continues (hm.threads v (hthreads ▸ hv)) (htaken.trans hcont))

theorem Upholds.runNext (hT : Upheld given T) (hm : m.Upholds T given) {ran : Bool}
    (hr : m.runNext = .ok (ran, m')) : m'.Upholds T given := by
  rcases runNext_slices hr with ⟨-, s, hnext, rfl⟩ | ⟨-, t, s, after, t', hnext, hturn, hor⟩
  · obtain ⟨hthreads, hspawned, -⟩ := nextFrom_cases hnext
    refine ⟨waits_runNext hm.waits hr, ?_, fun t ht => ?_⟩
    · exact hspawned ▸ hm.given_le
    · exact hT.continues (hm.threads t (hthreads ▸ ht)) (.of_eq rfl rfl rfl)
  · have hput := hm.slice hT hnext hturn
    rcases hor with rfl | hc
    · exact hput
    · exact hput.collect hT hc

theorem Upholds.step (hT : Upheld given T) (hm : m.Upholds T given) (hstep : HostStep m m') :
    m'.Upholds T given :=
  hstep.preserves (fun h => h.waits.balanced) (fun h => h.change hT) (fun h => h.spawn hT)
    (fun h => h.kill hT) (fun h => h.runNext hT) (fun h => h.collect hT) hm

theorem Upholds.run (hT : Upheld given T) (hm : m.Upholds T given)
    (hrun : ReflTransGen HostStep m m') : m'.Upholds T given := by
  induction hrun with
  | refl => exact hm
  | tail _ hstep ih => exact ih.step hT hstep

theorem Reachable.upholds (hT : Upheld 0 T) (hm : Reachable m) : m.Upholds T 0 := by
  induction hm with
  | new id c => exact ⟨waits_new id c, Nat.zero_le _, nofun⟩
  | step _ hstep ih => exact ih.step hT hstep

end Upholds

/-! ### Failed threads -/

theorem wakeIf_failed {t : Thread} {ids : List ThreadId} :
    (t.wakeIf ids).state = .failed e ↔ t.state = .failed e := by
  unfold Thread.wakeIf
  split
  · next h =>
    have hs : t.state ≠ .failed e := fun hs => by rw [hs] at h; cases h.1
    simp [hs]
  · rfl

theorem ended_failed {t : Thread} : t.ended.state = .failed e ↔ t.state = .failed e := by
  unfold Thread.ended
  split
  · next h =>
    have hs : t.state ≠ .failed e := fun hs => by rw [hs] at h; cases h
    simp [hs]
  · rfl

/-- A thread fails in a turn because its last call raises. -/
theorem turn_raises {n : Nat} {t t' : Thread} (hs : t.state = .runnable)
    (ht : turn n m t = .ok (m', t')) (hf : t'.state = .failed e) :
    ∃ m₁ b operands, call m₁ b operands = .ok (.raise e, m') := by
  have hdone : t.state ≠ .failed e := by rw [hs]; nofun
  -- by induction on the calls that are left: only the one that raises leaves the thread failed
  induction n generalizing m t with
  | zero => cases ht; exact absurd hf hdone
  | succ n ih =>
    rw [turn] at ht
    cases hi : t.code[t.pc]? with
    | none =>
      rw [hi] at ht
      cases ht
      exact absurd hf hdone
    | some i =>
      rw [hi] at ht
      obtain ⟨operands, -, ht⟩ := bind_eq_ok.mp ht
      obtain ⟨⟨outcome, m₁⟩, hcall, ht⟩ := bind_eq_ok.mp ht
      cases outcome with
      | proceed results => exact ih (t := t.advance i.outputs results) hs ht hdone
      | raise exception =>
        cases ht
        cases hf
        exact ⟨m, i.builtin, operands, hcall⟩
      | suspend v =>
        obtain ⟨⟨parked, heap⟩, -, ht⟩ := bind_eq_ok.mp ht
        cases parked with
        | true => cases ht; cases hf
        | false => exact ih hs ht hdone

section Failures

variable {S : Machine → Node → Prop}

/-- What holds of every exception that a call raises holds of what threads have failed with. -/
theorem Enduring.failures (hS : Enduring S) (hraise : ∀ {m m' : Machine} {b : Builtin}
      {operands : List Node} {e : Node}, m.call b operands = .ok (.raise e, m') → S m' e) :
    Upheld 0 fun m t => ∀ e, t.state = .failed e → S m e where
  continues ht hc e he := hS.continues (ht e he) hc
  fresh _ hs e he := by rw [hs] at he; cases he
  wake _ ht e he := ht e (wakeIf_failed.mp he)
  turn _ hs hturn _ e he := by
    obtain ⟨m₁, b, operands, hcall⟩ := turn_raises hs hturn he
    exact hraise hcall
  ended ht e he := ht e (ended_failed.mp he)
  relocate ht hr hmem e' he' := by
    obtain ⟨e, he, rfl⟩ := ThreadState.relocate_eq_failed he'
    exact hS.relocate (ht e he) hr (live_failed hmem he)

/-- A thread that has failed stays so, and what holds of its exception goes on to hold. -/
theorem Enduring.failed (hS : Enduring S) (id : ThreadId) :
    Upheld id.number fun m t => t.id = id → ∃ e, t.state = .failed e ∧ S m e where
  continues ht hc hid := by
    obtain ⟨e, he, hn⟩ := ht hid
    exact ⟨e, he, hS.continues hn hc⟩
  fresh hlt _ hid := by
    rw [hid] at hlt
    exact absurd hlt (Nat.lt_irrefl _)
  wake ids ht hid := by
    obtain ⟨e, he, hn⟩ := ht (by simpa using hid)
    exact ⟨e, wakeIf_failed.mpr he, hn⟩
  turn ht hs _ hsame hid := by
    -- a thread that has its turn has not failed
    obtain ⟨e, he, -⟩ := ht (hsame.symm.trans hid)
    rw [hs] at he
    cases he
  ended ht hid := by
    obtain ⟨e, he, hn⟩ := ht (by simpa using hid)
    exact ⟨e, ended_failed.mpr he, hn⟩
  relocate ht hr hmem hid := by
    obtain ⟨e, he, hn⟩ := ht hid
    refine ⟨_, ?_, hS.relocate hn hr (live_failed hmem he)⟩
    show ThreadState.relocate _ _ = _
    rw [he]
    rfl

end Failures

/-! ### What calls complain of -/

/-- There is no field of this feature: a literal has none, and the record has no such one. -/
def Lacks (m : Machine) (receiver : Receiver) (f : Feature) : Prop :=
  ∀ ref, receiver = .record ref → ∃ r, m.heap.record ref = .ok r ∧ r.lookup f = none

/-- What can be wrong with the operands of a call, with the kind and the arguments of the exception
    that says so. -/
inductive Complaint (m : Machine) : Builtin → List Node → String → List Node → Prop where
  /-- A number has neither label nor fields. -/
  | receiver {b : Builtin} {n d : Node} {rest : List Node} :
      b ∈ [.label, .width, .dot, .dotNumber, .waitOr] → m.deref n = .ok d → d.isNumber = true →
      Complaint m b (n :: rest) "typeError" [.atom ⟨m.atoms.id, "Record"⟩, d]
  /-- Only features name fields. -/
  | feature {n f d : Node} : m.deref f = .ok d → d.asVariable? = none → d.isFeature = false →
      Complaint m .dot [n, f] "typeError" [.atom ⟨m.atoms.id, "Feature"⟩, d]
  /-- A field is selected by an integer. -/
  | integer {n f d : Node} : m.deref f = .ok d → d.asVariable? = none → (∀ i, d ≠ .int i) →
      Complaint m .dotNumber [n, f] "typeError" [.atom ⟨m.atoms.id, "Int"⟩, d]
  /-- There is no such field. -/
  | field {b : Builtin} {n f : Node} {receiver : Receiver} {g : Feature} :
      b = .dot ∨ b = .dotNumber → m.deref n = .ok receiver.toNode → m.deref f = .ok g.toNode →
      m.Lacks receiver g → Complaint m b [n, f] "illegalFieldSelection" [receiver.toNode, g.toNode]
  /-- Two values should be equal, and are not. -/
  | values {target value current x : Node} : m.deref target = .ok current →
      current.asVariable? = none → m.deref value = .ok x → x.asVariable? = none →
      m.equals current value = .ok false →
      Complaint m .bind [target, value] "failure" [current, value]

/-- If the computation ends with an exception, it carries a complaint about the operands. -/
def Complains (m : Machine) (b : Builtin) (operands : List Node)
    (x : Except Fault (Outcome × Machine)) : Prop :=
  ∀ e m', x = .ok (.raise e, m') → ∃ kind arguments, m.Complaint b operands kind arguments ∧
    m'.IsException kind arguments e

variable {b : Builtin} {operands : List Node}

theorem Complains.proceed (results : List Node) (m' : Machine) :
    m.Complains b operands (.ok (.proceed results, m')) := nofun

theorem Complains.suspend (v : VarRef) (m' : Machine) :
    m.Complains b operands (.ok (.suspend v, m')) := nofun

theorem Complaint.raise (hc : m.Complaint b operands kind arguments) :
    m.Complains b operands
      (.ok (.raise (m.newException kind arguments).1, (m.newException kind arguments).2)) := by
  intro e m' he
  cases he
  exact ⟨kind, arguments, hc, isException_newException m kind arguments⟩

/-- The name of the expected type is an atom of the machine. -/
theorem Complaint.typeError {expected : String} {d : Node}
    (hc : m.Complaint b operands "typeError" [.atom ⟨m.atoms.id, expected⟩, d]) :
    m.Complains b operands (.ok (m.raiseTypeError expected d)) := by
  intro e m' he
  rw [raiseTypeError_eq] at he
  cases he
  exact ⟨_, _, hc, isException_newException _ "typeError" [.atom ⟨m.atoms.id, expected⟩, d]⟩

/-- The computation goes on with what is read. -/
theorem Complains.bind {α : Type} {x : Except Fault α} {next : α → Except Fault (Outcome × Machine)}
    (hnext : ∀ a, x = .ok a → m.Complains b operands (next a)) :
    m.Complains b operands (x >>= next) := by
  intro e m' he
  obtain ⟨a, ha, he⟩ := bind_eq_ok.mp he
  exact hnext a ha e m' he

/-! ### Calls -/

theorem complains_withReceiver {n : Node} {rest : List Node}
    (hb : b ∈ [.label, .width, .dot, .dotNumber, .waitOr])
    {call : Receiver → Except Fault (Outcome × Machine)}
    (hcall : ∀ receiver : Receiver, m.deref n = .ok receiver.toNode →
      m.Complains b (n :: rest) (call receiver)) :
    m.Complains b (n :: rest) (m.withReceiver n call) := by
  refine .bind fun d hd => ?_
  cases d with
  | «variable» v => exact .suspend v m
  | record ref => exact hcall (.record ref) hd
  | atom a => exact hcall (.literal (.atom a)) hd
  | bool b => exact hcall (.literal (.bool b)) hd
  | unit => exact hcall (.literal .unit) hd
  | int i => exact (Complaint.receiver hb hd rfl).typeError
  | float x => exact (Complaint.receiver hb hd rfl).typeError

theorem complains_label (n : Node) : m.Complains .label [n] (m.label n) := by
  refine complains_withReceiver (by decide) fun receiver _ => ?_
  cases receiver with
  | literal l => exact .proceed _ _
  | record ref => exact .bind fun r _ => .proceed _ _

theorem complains_width (n : Node) : m.Complains .width [n] (m.width n) := by
  refine complains_withReceiver (by decide) fun receiver _ => ?_
  cases receiver with
  | literal l => exact .proceed _ _
  | record ref => exact .bind fun r _ => .proceed _ _

theorem complains_waitOr (n : Node) : m.Complains .waitOr [n] (m.waitOr n) := by
  refine complains_withReceiver (by decide) fun receiver _ => ?_
  cases receiver with
  | literal l => exact .proceed _ _
  | record ref =>
    refine .bind fun r _ => .bind fun found _ => ?_
    cases found with
    | inl f => exact .proceed _ _
    | inr vs => exact .bind fun waited _ => .suspend _ _

theorem value_of_not_variable {d : Node} (hd : ∀ v, d = .variable v → False) :
    d.asVariable? = none :=
  d.value_or_variable.resolve_right fun ⟨v, hv⟩ => hd v hv

/-- The field at a feature, for both builtins that select one. -/
theorem complains_dot (hb : b = .dot ∨ b = .dotNumber) {n f : Node}
    (hfeature : ∀ d, m.deref f = .ok d → d.asVariable? = none → d.isFeature = false →
      m.Complaint b [n, f] "typeError" [.atom ⟨m.atoms.id, "Feature"⟩, d]) :
    m.Complains b [n, f] (m.dot n f) := by
  have hmem : b ∈ [.label, .width, .dot, .dotNumber, .waitOr] := by
    rcases hb with rfl | rfl <;> decide
  refine complains_withReceiver hmem fun receiver hn => .bind fun d hd => ?_
  split
  · exact .suspend _ _
  · next d _ _ hvar hnone =>
    have hnot : d.isFeature = false := by rw [Node.isFeature, hnone]; rfl
    exact (hfeature d hd (value_of_not_variable hvar) hnot).typeError
  · next d _ _ g _ hg =>
    obtain rfl := Node.asFeature?_eq_some_iff.mp hg
    have hlacks : m.Lacks receiver g → m.Complaint b [n, f] "illegalFieldSelection"
        [receiver.toNode, g.toNode] := fun h => .field hb hn hd h
    cases receiver with
    | literal l => exact (hlacks fun ref he => by cases he).raise
    | record ref =>
      refine .bind fun r hr => ?_
      split
      · exact .proceed _ _
      · next hnone =>
        refine (hlacks fun ref' he => ?_).raise
        cases he
        exact ⟨r, hr, hnone⟩

theorem complains_callDotNumber (n f : Node) :
    m.Complains .dotNumber [n, f] (m.callDotNumber n f) := by
  refine .bind fun d _ => ?_
  split
  · exact .suspend _ _
  refine .bind fun x hx => ?_
  cases x with
  | «variable» v => exact .suspend _ _
  | int i =>
    -- at an integer this is the general selection, and an integer is a feature
    show m.Complains .dotNumber [n, f] (m.dotNumber n i)
    rw [dotNumber_eq_dot hx]
    refine complains_dot (.inr rfl) fun d hd _ hnot => ?_
    rw [hx] at hd
    cases hd
    cases hnot
  | _ => exact (Complaint.integer hx rfl nofun).typeError

theorem complains_callBind (target value : Node) :
    m.Complains .bind [target, value] (m.callBind target value) := by
  refine .bind fun current hcurrent => ?_
  split
  · refine .bind fun bound _ => ?_
    cases bound with
    | ok m' => exact .proceed _ _
    | error e => exact nofun
  · next hvar =>
    refine .bind fun x hx => ?_
    split
    · exact .suspend _ _
    · next hvar' =>
      refine .bind fun same hsame => ?_
      cases same with
      | true => exact .proceed _ _
      | false =>
        have hvalue := value_of_not_variable hvar
        have hvalue' := value_of_not_variable hvar'
        exact (Complaint.values hcurrent hvalue hx hvalue' hsame).raise

/-- Every exception that a builtin raises carries a complaint about its operands. -/
theorem complains_call (b : Builtin) (operands : List Node) :
    m.Complains b operands (m.call b operands) := by
  unfold call
  split
  · exact complains_label _
  · exact complains_width _
  · exact complains_dot (.inl rfl) fun d => .feature
  · exact complains_callDotNumber _ _
  · exact complains_waitOr _
  · refine .bind fun d _ => ?_
    split
    · exact .suspend _ _
    · exact .proceed _ _
  · exact .bind fun _ _ => .proceed _ _
  · exact complains_callBind _ _
  · exact .bind fun _ _ => .proceed _ _
  · exact nofun

/-- The kinds of the exceptions that builtins raise. -/
def raisedKinds : List String := ["typeError", "illegalFieldSelection", "failure"]

theorem Complaint.kind_mem (hc : m.Complaint b operands kind arguments) : kind ∈ raisedKinds := by
  cases hc <;> decide

/-! ### Exceptions keep their kind -/

/-- Every thread of a reachable machine that has failed holds an exception that a builtin raised. -/
theorem Reachable.failures (hm : Reachable m) {t : Thread} (ht : t ∈ m.scheduler.threads)
    (hf : t.state = .failed e) : m.ExceptionWith (fun kind _ => kind ∈ raisedKinds) e := by
  have hT := (enduring_exceptionWith fun kind _ => kind ∈ raisedKinds).failures
    fun {m m' b operands e} hcall => by
      obtain ⟨kind, arguments, hc, he⟩ := complains_call b operands e m' hcall
      exact ⟨kind, arguments, hc.kind_mem, he⟩
  exact (hm.upholds hT).threads t ht e hf

/-- The node stands for an exception of this kind, with so many arguments, and its kind can be
    read. -/
structure HasKind (m : Machine) (kind : String) (count : Nat) (e : Node) : Prop where
  form : ∃ arguments, arguments.length = count ∧ m.IsException kind arguments e
  read : m.exceptionKind e = .ok (some kind)

theorem ExceptionWith.hasKind {count : Nat}
    (he : m.ExceptionWith (fun k c => k = kind ∧ c = count) e) : m.HasKind kind count e := by
  obtain ⟨_, arguments, ⟨rfl, rfl⟩, he⟩ := he
  exact ⟨⟨arguments, rfl, he⟩, he.exceptionKind⟩

/-- A slot that holds an exception holds one of the same kind for good. -/
theorem IsException.pinned (hw : Waits m.heap m.scheduler.threads m.scheduler.spawned)
    (he : m.IsException kind arguments e) {slot : Nat} (hroot : m.root? slot = some e)
    (hrun : ReflTransGen HostStep m m') :
    ∃ e', m'.root? slot = some e' ∧ m'.HasKind kind arguments.length e' := by
  have hpins : m.Pins (ExceptionWith fun k c => k = kind ∧ c = arguments.length) slot :=
    ⟨e, hroot, kind, arguments, ⟨rfl, rfl⟩, he⟩
  obtain ⟨e', hroot', he'⟩ := hpins.run (enduring_exceptionWith _) hw hrun
  exact ⟨e', hroot', he'.hasKind⟩

/-- A thread that has failed with an exception holds one of the same kind until it is killed. -/
theorem IsException.failed (hw : Waits m.heap m.scheduler.threads m.scheduler.spawned)
    (he : m.IsException kind arguments e) {id : ThreadId} {t t' : Thread}
    (ht : m.thread? id = some t) (hf : t.state = .failed e) (hrun : ReflTransGen HostStep m m')
    (ht' : m'.thread? id = some t') :
    ∃ e', t'.state = .failed e' ∧ m'.HasKind kind arguments.length e' := by
  obtain ⟨hmem, hid⟩ := Scheduler.mem_of_thread? ht
  obtain ⟨hmem', hid'⟩ := Scheduler.mem_of_thread? ht'
  have hup : m.Upholds (fun m t => t.id = id → ∃ e, t.state = .failed e ∧
      m.ExceptionWith (fun k c => k = kind ∧ c = arguments.length) e) id.number := by
    refine ⟨hw, hid ▸ hw.numbered t hmem, fun u hu huid => ?_⟩
    -- numbers are given out once, so this is the thread
    obtain rfl := Scheduler.eq_of_id hw.nodup hu hmem (huid.trans hid.symm)
    exact ⟨e, hf, kind, arguments, ⟨rfl, rfl⟩, he⟩
  obtain ⟨e', hf', he'⟩ :=
    (hup.run ((enduring_exceptionWith _).failed id) hrun).threads t' hmem' hid'
  exact ⟨e', hf', he'.hasKind⟩

/-- The node stands for an exception, which is of one kind for as long as it can be found. -/
structure KeepsKind (m : Machine) (kind : String) (arguments : List Node) (e : Node) : Prop where
  form : m.IsException kind arguments e
  read : m.exceptionKind e = .ok (some kind)
  /-- Until the next collection it is what it was, whatever has been done. -/
  span : ∀ m', ReflTransGen HostStep m m' → m'.atoms.id = m.atoms.id →
    m'.IsException kind arguments e ∧ m'.exceptionKind e = .ok (some kind)
  /-- If it is pinned before that, its slot holds an exception of its kind for good. -/
  slot : ∀ m₁ m₂ slot, ReflTransGen HostStep m m₁ → m₁.atoms.id = m.atoms.id →
    m₁.root? slot = some e → ReflTransGen HostStep m₁ m₂ →
    ∃ e', m₂.root? slot = some e' ∧ m₂.HasKind kind arguments.length e'
  /-- If a thread fails with it, the thread holds an exception of its kind for good. -/
  thread : ∀ m₁ m₂ id t t', ReflTransGen HostStep m m₁ → m₁.atoms.id = m.atoms.id →
    m₁.thread? id = some t → t.state = .failed e → ReflTransGen HostStep m₁ m₂ →
    m₂.thread? id = some t' → ∃ e', t'.state = .failed e' ∧ m₂.HasKind kind arguments.length e'
  /-- A collection moves it, with its arguments, if it is alive. -/
  moved : ∀ m', m.collect = .ok m' → m.Live e →
    ∃ φ, Relocation m m' φ ∧ m'.IsException kind (arguments.map φ) (φ e)

theorem IsException.keepsKind (hw : Waits m.heap m.scheduler.threads m.scheduler.spawned)
    (he : m.IsException kind arguments e) : m.KeepsKind kind arguments e := by
  -- a machine with the same table is of the same span
  have hlater : ∀ {m₁ : Machine}, ReflTransGen HostStep m m₁ → m₁.atoms.id = m.atoms.id →
      Waits m₁.heap m₁.scheduler.threads m₁.scheduler.spawned ∧
        m₁.IsException kind arguments e := by
    intro m₁ hrun hid
    obtain ⟨hw₁, hages⟩ := ages_of_run hw hrun
    exact ⟨hw₁, he.continues (hages.continues hid)⟩
  refine ⟨he, he.exceptionKind, ?_, ?_, ?_, ?_⟩
  · intro m' hrun hid
    obtain ⟨-, he'⟩ := hlater hrun hid
    exact ⟨he', he'.exceptionKind⟩
  · intro m₁ m₂ slot hrun hid hroot hrest
    obtain ⟨hw₁, he₁⟩ := hlater hrun hid
    exact he₁.pinned hw₁ hroot hrest
  · intro m₁ m₂ id t t' hrun hid ht hf hrest ht'
    obtain ⟨hw₁, he₁⟩ := hlater hrun hid
    exact he₁.failed hw₁ ht hf hrest ht'
  · intro m' hc hlive
    obtain ⟨φ, hr⟩ := relocation_of_collect hc
    exact ⟨φ, hr, he.relocate hr hlive⟩

/-- Exceptions are well formed and keep their kind. Whatever a machine makes an exception of, its
    kind can be read back, then and later. Each call of a builtin that raises gives such an
    exception, with one of three kinds, and its arguments say what was wrong: the expected type and
    the value that is not of it, the receiver and the feature that it lacks, or the two values that
    are not equal. So every failed thread holds one. -/
theorem Reachable.exceptions_keep_kind (hm : Reachable m) :
    (∀ kind arguments, (m.newException kind arguments).2.KeepsKind kind arguments
      (m.newException kind arguments).1) ∧
    (∀ b operands e m', m.call b operands = .ok (.raise e, m') →
      ∃ kind arguments, kind ∈ raisedKinds ∧ m.Complaint b operands kind arguments ∧
        m'.KeepsKind kind arguments e) ∧
    ∀ t ∈ m.scheduler.threads, ∀ e, t.state = .failed e →
      ∃ kind arguments, kind ∈ raisedKinds ∧ m.KeepsKind kind arguments e := by
  refine ⟨fun kind arguments => ?_, fun b operands e m' hcall => ?_, fun t ht e hf => ?_⟩
  · have hmade := hm.step (.newException m kind arguments)
    exact (isException_newException m kind arguments).keepsKind hmade.waits
  · obtain ⟨kind, arguments, hc, he⟩ := complains_call b operands e m' hcall
    exact ⟨kind, arguments, hc.kind_mem, hc, he.keepsKind (hm.step (.call b operands hcall)).waits⟩
  · obtain ⟨kind, arguments, hk, he⟩ := hm.failures ht hf
    exact ⟨kind, arguments, hk, he.keepsKind hm.waits⟩

/-- A machine with a free variable, and with a thread that has asked a number for its label. -/
def blaming : Machine :=
  { id := ⟨0⟩
    atoms := { id := ⟨⟨0⟩, 0⟩, contents := ["debug", "error", "typeError", "kernel", "Record"] }
    heap := {
      records := #[
        .exceptionDetail ⟨⟨0⟩, 0⟩ "typeError" [.atom ⟨⟨⟨0⟩, 0⟩, "Record"⟩, .int 5],
        .exception ⟨⟨0⟩, 0⟩ (.record ⟨0⟩)]
      cells := #[.unbound []]
      allocated := 3 }
    scheduler := {
      threads := [{
        id := ⟨1⟩
        state := .failed (.record ⟨1⟩)
        registers := [.int 5]
        code := [⟨.label, [0], [0]⟩] }]
      spawned := 1 } }

theorem reachable_blaming : Reachable blaming := by
  have h₁ := (Reachable.new ⟨0⟩ {}).step (.newVariable _)
  have h₂ := h₁.step (.spawn [⟨.label, [0], [0]⟩] [.int 5] rfl)
  exact h₂.step (.runNext rfl)

/-- An exception with the variable as its argument is made and pinned. Then the variable is bound,
    and a collection moves everything: both the slot and the thread hold what they held. A bind that
    fails raises one more exception. -/
theorem blaming_keeps_kinds : Reachable blaming ∧
    (∃ e m', blaming.call .bind [.int 1, .int 2] = .ok (.raise e, m') ∧
      m'.exceptionKind e = .ok (some "failure")) ∧
    ∃ e m₁ m₂ m₃ m₄, blaming.newException "odd" [.variable ⟨0⟩] = (e, m₁) ∧
      m₁.addRoot e = (0, m₂) ∧ m₂.bind ⟨0⟩ (.int 7) = .ok (.ok m₃) ∧ m₃.collect = .ok m₄ ∧
      (∃ e', m₄.root? 0 = some e' ∧ m₄.exceptionKind e' = .ok (some "odd")) ∧
      ∃ t' e', m₄.thread? ⟨1⟩ = some t' ∧ t'.state = .failed e' ∧
        m₄.exceptionKind e' = .ok (some "typeError") := by
  obtain ⟨hmade, hraised, hfailed⟩ := reachable_blaming.exceptions_keep_kind
  obtain ⟨e, m', hcall⟩ : ∃ e m', blaming.call .bind [.int 1, .int 2] = .ok (.raise e, m') :=
    ⟨_, _, rfl⟩
  obtain ⟨m₃, hbind, hthread⟩ : ∃ m₃,
      ((blaming.newException "odd" [.variable ⟨0⟩]).2.addRoot (.record ⟨3⟩)).2.bind ⟨0⟩ (.int 7) =
        .ok (.ok m₃) ∧ (do let m ← m₃.collect; return (m.thread? ⟨1⟩).isSome) = .ok true :=
    ⟨_, rfl, by decide +kernel⟩
  obtain ⟨m₄, hcollect, hsome⟩ := bind_eq_ok.mp hthread
  obtain ⟨t', ht'⟩ := Option.isSome_iff_exists.mp (Except.ok.inj hsome)
  have hrun := (ReflTransGen.single (HostStep.bind _ _ hbind)).tail (.collect hcollect)
  have hpin := ReflTransGen.single
    (HostStep.addRoot (blaming.newException "odd" [.variable ⟨0⟩]).2 (.record ⟨3⟩))
  refine ⟨reachable_blaming, ⟨e, m', hcall, ?_⟩, _, _, _, m₃, m₄, rfl, rfl, hbind, hcollect, ?_, ?_⟩
  · obtain ⟨kind, arguments, -, hc, hkeeps⟩ := hraised _ _ e m' hcall
    cases hc with
    | receiver hb => exact absurd hb (by decide)
    | field hb => exact absurd hb (by decide)
    | values => exact hkeeps.read
  · obtain ⟨e', hroot, hkind⟩ := (hmade "odd" [.variable ⟨0⟩]).slot _ m₄ 0 hpin rfl rfl hrun
    exact ⟨e', hroot, hkind.read⟩
  · obtain ⟨kind, arguments, -, hkeeps⟩ := hfailed _ (List.mem_singleton.mpr rfl) _ rfl
    -- the kind is the one that is read
    have hread : blaming.exceptionKind (.record ⟨1⟩) = .ok (some "typeError") := rfl
    cases hkeeps.read.symm.trans hread
    have hmake := ReflTransGen.single (HostStep.newException blaming "odd" [.variable ⟨0⟩])
    obtain ⟨e', hf, hkind⟩ := hkeeps.thread blaming m₄ ⟨1⟩ _ t' .refl rfl rfl rfl
      ((hmake.trans hpin).trans hrun) ht'
    exact ⟨t', e', ht', hf, hkind.read⟩

end Machine

end Dataflow
