import Dataflow.Proofs.Courses
import Dataflow.Proofs.Summons

/-! # Twins

  Two machines are *twins* if they stand abreast and their threads, which bind nothing, are at the
  same places. What a host asks of both of them, to make nodes, to pin them, to bind a variable, to
  start and to remove threads, leaves them twins. A bind may wake other threads on the one than on the
  other, since the threads of the one may have waited for other controls; but a thread that waits and a
  thread that runs have the same calls to make.

  Main statement: a run leaves twins at the same places again, whatever the lengths of their turns.
-/

namespace Dataflow

open Machine (Poised Free Quiet Tended CarefulStep Advances)

variable {β β₁ γ : VarRef → VarRef → Prop} {a b a₁ b₁ : View} {m m' m₁ m₁' : Machine} {n n' : Node}

/-! ### Twins and the nodes that both know -/

/-- Two machines have been told the same, and their threads are at the same places. -/
structure Twins (β : VarRef → VarRef → Prop) (m m' : Machine) : Prop extends Abreast β m m' where
  tendedLeft : Tended m
  tendedRight : Tended m'
  threads : List.Forall₂ (Mates β m.view m'.view) m.scheduler.threads m'.scheduler.threads
  bindFree : ∀ t ∈ m.scheduler.threads, t.BindFree

/-- A host may pass the one node to the one machine, and the other to the other. -/
structure Handed (β : VarRef → VarRef → Prop) (m m' : Machine) (n n' : Node) : Prop where
  resembles : Resembles β m.view m'.view n n'
  left : m.Trusts n
  right : m'.Trusts n'

/-- The twins `m` and `m'` have become `m₁` and `m₁'`, and know the same nodes as before. -/
structure Onward (β : VarRef → VarRef → Prop) (m m' : Machine) (β₁ : VarRef → VarRef → Prop)
    (m₁ m₁' : Machine) : Prop where
  twins : Twins β₁ m₁ m₁'
  handed : ∀ {n n' : Node}, Handed β m m' n n' → Handed β₁ m₁ m₁' n n'

/-- The twins have gone on, and each has made a node. -/
def Received (β : VarRef → VarRef → Prop) (m m' : Machine) (r r' : Node × Machine) : Prop :=
  ∃ β₁, Onward β m m' β₁ r.2 r'.2 ∧ Handed β₁ r.2 r'.2 r.1 r'.1

theorem Machine.Tended.poised (hm : Tended m) : m.Poised := ⟨hm.orderly, hm.reachable.waits⟩

theorem Twins.root (h : Twins β m m') :
    List.Forall₂ (Handed β m m') m.roots m'.roots := by
  have hleft := forall₂_imp_left h.roots fun n hn n' hnn =>
    (⟨hnn, h.left.orderly.roots n hn⟩ : Resembles β m.view m'.view n n' ∧ m.Trusts n)
  exact forall₂_imp_right hleft fun n' hn' n hnn =>
    ⟨hnn.1, hnn.2, h.right.orderly.roots n' hn'⟩

/-- New machines are twins, whatever the lengths of their turns. -/
theorem twins_new (id : MachineId) (c c' : Configuration)
    (hdepth : c.settings.printDepth = c'.settings.printDepth) :
    Twins (fun _ _ => False) (.new id c) (.new id c') where
  left := (Tended.new id c).poised
  right := (Tended.new id c').poised
  depth := hdepth
  spawned := rfl
  roots := .nil
  free := False.elim
  unique_left := False.elim
  unique_right := False.elim
  tendedLeft := .new id c
  tendedRight := .new id c'
  threads := .nil
  bindFree _ ht := absurd ht List.not_mem_nil

/-! ### Making nodes -/

theorem Akin.imp {s s' : ThreadState} (himp : ∀ n n', Resembles β a b n n' → Resembles β₁ a₁ b₁ n n')
    (hs : Akin β a b s s') : Akin β₁ a₁ b₁ s s' := by
  cases hs with
  | active ha ha' => exact .active ha ha'
  | terminated => exact .terminated
  | failed he => exact .failed (himp _ _ he)

theorem Mates.imp {t t' : Thread} (himp : ∀ n n', Resembles β a b n n' → Resembles β₁ a₁ b₁ n n')
    (ht : Mates β a b t t') : Mates β₁ a₁ b₁ t t' :=
  ⟨ht.toPeers.imp himp, ht.state.imp himp⟩

/-- Both machines take a quiet step, after which as many variables are related at least. -/
theorem Twins.grow (h : Twins β m m') (hm₁ : Tended m₁) (hm₁' : Tended m₁') (hq : m.Quiet m₁)
    (hq' : m'.Quiet m₁') (ha : m.Advances m₁) (ha' : m'.Advances m₁')
    (hβ : ∀ v v', β v v' → β₁ v v') (hfree : ∀ {v v'}, β₁ v v' → m₁.Free v ∧ m₁'.Free v')
    (hleft : ∀ {v v' v''}, β₁ v v' → β₁ v v'' → v' = v'')
    (hright : ∀ {v v' v''}, β₁ v v'' → β₁ v' v'' → v = v') : Onward β m m' β₁ m₁ m₁' := by
  have himp : ∀ n n', Resembles β m.view m'.view n n' → Resembles β₁ m₁.view m₁'.view n n' := by
    intro n n' hn
    have htable : m₁.view.table = m.view.table := hq.table
    have htable' : m₁'.view.table = m'.view.table := hq'.table
    exact hn.extend htable htable' hq.heap hq'.heap hβ
  refine ⟨⟨⟨hm₁.poised, hm₁'.poised, ?_, ?_, ?_, hfree, hleft, hright⟩, hm₁, hm₁', ?_, ?_⟩, ?_⟩
  · rw [hq.settings, hq'.settings]
    exact h.depth
  · rw [hq.scheduler, hq'.scheduler]
    exact h.spawned
  · rw [hq.roots, hq'.roots]
    exact h.roots.imp himp
  · rw [hq.scheduler, hq'.scheduler]
    exact h.threads.imp fun _ _ ht => ht.imp himp
  · rw [hq.scheduler]
    exact h.bindFree
  · intro n n' hn
    exact ⟨himp n n' hn.resembles, ha.trusts hn.left, ha'.trusts hn.right⟩

/-- Both machines make a node out of new atoms and new records. -/
theorem Twins.make (h : Twins β m m') {r r' : Node × Machine} (hm₁ : CarefulStep m r.2)
    (hm₁' : CarefulStep m' r'.2) (hp : m.Prolongs r.2) (hp' : m'.Prolongs r'.2)
    (ha : m.Advances r.2 ∧ r.2.Trusts r.1) (ha' : m'.Advances r'.2 ∧ r'.2.Trusts r'.1)
    (hn : Resembles β r.2.view r'.2.view r.1 r'.1) : Received β m m' r r' := by
  have hfree : ∀ {v v'}, β v v' → r.2.Free v ∧ r'.2.Free v' := fun hv =>
    ⟨(h.free hv).1.advances ha.1 hp.extends, (h.free hv).2.advances ha'.1 hp'.extends⟩
  refine ⟨β, ?_, hn, ha.2, ha'.2⟩
  exact h.grow (h.tendedLeft.step hm₁) (h.tendedRight.step hm₁') hp.quiet hp'.quiet ha.1 ha'.1
    (fun _ _ hv => hv) hfree h.unique_left h.unique_right

theorem Twins.newAtom (h : Twins β m m') (content : String) :
    Received β m m' (m.newAtom content) (m'.newAtom content) := by
  have hadvances : ∀ {m : Machine}, m.Orderly →
      m.Advances (m.newAtom content).2 ∧ (m.newAtom content).2.Trusts (m.newAtom content).1 := by
    intro m ho
    rw [Machine.newAtom_eq]
    exact Machine.advances_making.intern ho.advances content
  apply h.make (.newAtom m content) (.newAtom m' content)
  · rw [m.newAtom_eq]
    exact Machine.prolongs_intern m content
  · rw [m'.newAtom_eq]
    exact Machine.prolongs_intern m' content
  · exact hadvances h.left.orderly
  · exact hadvances h.right.orderly
  · exact ((resembling_crafting β).newAtom (resembling_resemblance β m m') content).resembles

theorem forall_handed {ns ns' : List Node} (hn : List.Forall₂ (Handed β m m') ns ns') :
    List.Forall₂ (Resembles β m.view m'.view) ns ns' ∧ (∀ n ∈ ns, m.Trusts n) ∧
      ∀ n' ∈ ns', m'.Trusts n' :=
  ⟨hn.imp fun _ _ h => h.resembles, forall_of_forall₂ hn fun _ _ h => h.left,
    forall_of_forall₂ hn.flip fun _ _ h => h.right⟩

theorem Twins.newException (h : Twins β m m') (kind : String) {args args' : List Node}
    (hargs : List.Forall₂ (Handed β m m') args args') :
    Received β m m' (m.newException kind args) (m'.newException kind args') := by
  obtain ⟨hresembles, hleft, hright⟩ := forall_handed hargs
  have hprolongs : ∀ (m : Machine) (args : List Node), m.Prolongs (m.newException kind args).2 :=
    fun m args => (Machine.prolongs_making.newException (.refl m) kind fun _ _ => trivial).1
  apply h.make (.newException m kind args hleft) (.newException m' kind args' hright)
  · exact hprolongs m args
  · exact hprolongs m' args'
  · exact Machine.advances_making.newException h.left.orderly.advances kind hleft
  · exact Machine.advances_making.newException h.right.orderly.advances kind hright
  · exact ((resembling_crafting β).newException (resembling_resemblance β m m') kind
      hresembles).resembles

/-- The new variables are related, and no older ones to them. -/
theorem Twins.newVariable (h : Twins β m m') :
    Received β m m' (.variable m.newVariable.1, m.newVariable.2)
      (.variable m'.newVariable.1, m'.newVariable.2) := by
  -- a variable that is known already is not the new one
  have hold : ∀ {m : Machine} {v : VarRef}, m.Free v → v ≠ m.newVariable.1 := by
    intro m v hv he
    obtain ⟨-, ls, hc⟩ := hv
    rw [he] at hc
    exact Heap.cell_fresh hc
  have hnew : ∀ {m : Machine}, m.Orderly → m.newVariable.2.Free m.newVariable.1 := by
    intro m ho
    obtain ⟨-, -, htrusted⟩ := ho.heap.allocateVariable
    exact ⟨htrusted, [], Heap.cell_allocateVariable.mpr (.inr ⟨rfl, rfl⟩)⟩
  have hquiet : ∀ m : Machine, m.Quiet m.newVariable.2 :=
    fun m => ⟨rfl, rfl, rfl, rfl, Heap.extends_allocateVariable _⟩
  have ha := h.left.orderly.newVariable
  have ha' := h.right.orderly.newVariable
  have hon : Onward β m m' (fun v v' => β v v' ∨ v = m.newVariable.1 ∧ v' = m'.newVariable.1)
      m.newVariable.2 m'.newVariable.2 := by
    apply h.grow (h.tendedLeft.step (.newVariable m)) (h.tendedRight.step (.newVariable m'))
      (hquiet m) (hquiet m') ha ha'
    · intro v v' hv
      exact .inl hv
    · intro v v' hv
      rcases hv with hv | ⟨rfl, rfl⟩
      · exact ⟨(h.free hv).1.advances ha (hquiet m).heap,
          (h.free hv).2.advances ha' (hquiet m').heap⟩
      · exact ⟨hnew h.left.orderly, hnew h.right.orderly⟩
    · intro v v' v'' hv hv'
      rcases hv with hv | ⟨hv, rfl⟩
      · rcases hv' with hv' | ⟨he, -⟩
        · exact h.unique_left hv hv'
        · exact absurd he (hold (h.free hv).1)
      · rcases hv' with hv' | ⟨-, rfl⟩
        · exact absurd hv (hold (h.free hv').1)
        · rfl
    · intro v v' v'' hv hv'
      rcases hv with hv | ⟨rfl, hv⟩
      · rcases hv' with hv' | ⟨-, he⟩
        · exact h.unique_right hv hv'
        · exact absurd he (hold (h.free hv).2)
      · rcases hv' with hv' | ⟨rfl, -⟩
        · exact absurd hv (hold (h.free hv').2)
        · rfl
  have hfree := hnew h.left.orderly
  have hfree' := hnew h.right.orderly
  refine ⟨_, hon, ⟨_, _, hfree.deref, hfree'.deref, ?_⟩, hfree.1, hfree'.1⟩
  exact .variable (.inr ⟨rfl, rfl⟩)

/-! ### Building records -/

theorem Abreast.workshop (h : Abreast β m m') :
    Workshop (resemblance β m.view m'.view) m m'
      fun r r' => Resembles β r.2.view r'.2.view r.1 r'.1 where
  repr hn := h.repr hn
  literal {l _} hl := .of_value hl (Literal.asVariable?_toNode l)
  allocate hr hbal :=
    ((resembling_crafting β).allocate (resembling_resemblance β m m') _ _ hr hbal).resembles

/-- What both machines have built of nodes that both know is known to both. -/
theorem Twins.built (h : Twins β m m') {x x' : Except Fault (Except Refusal (Node × Machine))}
    (hx : Agree (Agree fun r r' => Resembles β r.2.view r'.2.view r.1 r'.1) x x')
    (hleft : ∀ n m₁, x = .ok (.ok (n, m₁)) →
      CarefulStep m m₁ ∧ m.Prolongs m₁ ∧ m.Advances m₁ ∧ m₁.Trusts n)
    (hright : ∀ n m₁, x' = .ok (.ok (n, m₁)) →
      CarefulStep m' m₁ ∧ m'.Prolongs m₁ ∧ m'.Advances m₁ ∧ m₁.Trusts n) :
    Agree (Agree (Received β m m')) x x' := by
  cases hx with
  | error f => exact .error f
  | ok hr =>
    cases hr with
    | error e => exact .ok (.error e)
    | ok hn =>
      obtain ⟨hstep, hp, ha⟩ := hleft _ _ rfl
      obtain ⟨hstep', hp', ha'⟩ := hright _ _ rfl
      exact .ok (.ok (h.make hstep hstep' hp hp' ha ha' hn))

theorem Twins.buildTuple (h : Twins β m m') (hn : Handed β m m' n n') {ns ns' : List Node}
    (hns : List.Forall₂ (Handed β m m') ns ns') :
    Agree (Agree (Received β m m')) (m.buildTuple n ns) (m'.buildTuple n' ns') := by
  obtain ⟨hresembles, hleft, hright⟩ := forall_handed hns
  have hbuilt : ∀ {m m₁ : Machine} {label x : Node} {values : List Node}, m.Orderly →
      m.Trusts label → (∀ v ∈ values, m.Trusts v) → m.buildTuple label values = .ok (.ok (x, m₁)) →
      CarefulStep m m₁ ∧ m.Prolongs m₁ ∧ m.Advances m₁ ∧ m₁.Trusts x := by
    intro m m₁ label x values ho hl hv hb
    refine ⟨.buildTuple label values hl hv hb, ?_, ?_⟩
    · exact (Machine.prolongs_making.buildTuple (fun _ _ => trivial) (.refl m) trivial
        (fun _ _ => trivial) hb).1
    · exact Machine.advances_making.buildTuple ho.heap.trusted_deref ho.advances hl hv hb
  apply h.built (h.workshop.buildTuple hn.resembles hresembles)
  · exact fun x m₁ hb => hbuilt h.left.orderly hn.left hleft hb
  · exact fun x m₁ hb => hbuilt h.right.orderly hn.right hright hb

theorem Twins.buildRecord (h : Twins β m m') (hn : Handed β m m' n n')
    {fs fs' : List (Node × Node)}
    (hfs : List.Forall₂ (fun e e' => Handed β m m' e.1 e'.1 ∧ Handed β m m' e.2 e'.2) fs fs') :
    Agree (Agree (Received β m m')) (m.buildRecord n fs) (m'.buildRecord n' fs') := by
  have hresembles := hfs.imp fun _ _ he => And.intro he.1.resembles he.2.resembles
  have hleft : ∀ e ∈ fs, m.Trusts e.1 ∧ m.Trusts e.2 :=
    forall_of_forall₂ hfs fun _ _ he => ⟨he.1.left, he.2.left⟩
  have hright : ∀ e ∈ fs', m'.Trusts e.1 ∧ m'.Trusts e.2 :=
    forall_of_forall₂ hfs.flip fun _ _ he => ⟨he.1.right, he.2.right⟩
  have hbuilt : ∀ {m m₁ : Machine} {label x : Node} {fields : List (Node × Node)}, m.Orderly →
      m.Trusts label → (∀ e ∈ fields, m.Trusts e.1 ∧ m.Trusts e.2) →
      m.buildRecord label fields = .ok (.ok (x, m₁)) →
      CarefulStep m m₁ ∧ m.Prolongs m₁ ∧ m.Advances m₁ ∧ m₁.Trusts x := by
    intro m m₁ label x fields ho hl hf hb
    refine ⟨.buildRecord label fields hl hf hb, ?_, ?_⟩
    · exact (Machine.prolongs_making.buildRecord (fun _ _ => trivial) (.refl m) trivial
        (fun _ _ => ⟨trivial, trivial⟩) hb).1
    · exact Machine.advances_making.buildRecord ho.heap.trusted_deref ho.advances hl hf hb
  apply h.built (h.workshop.buildRecord hn.resembles hresembles)
  · exact fun x m₁ hb => hbuilt h.left.orderly hn.left hleft hb
  · exact fun x m₁ hb => hbuilt h.right.orderly hn.right hright hb

/-! ### Pinning nodes, starting and removing threads -/

/-- Both machines change their roots and threads, and leave their heaps. -/
theorem Twins.amend (h : Twins β m m') {roots roots' : List Node} {s s' : Scheduler}
    (hm₁ : CarefulStep m { m with roots, scheduler := s })
    (hm₁' : CarefulStep m' { m' with roots := roots', scheduler := s' })
    (hroots : List.Forall₂ (Resembles β m.view m'.view) roots roots')
    (hspawned : s.spawned = s'.spawned)
    (hthreads : List.Forall₂ (Mates β m.view m'.view) s.threads s'.threads)
    (hbind : ∀ t ∈ s.threads, t.BindFree) :
    Onward β m m' β { m with roots, scheduler := s } { m' with roots := roots', scheduler := s' } := by
  have hleft := h.tendedLeft.step hm₁
  have hright := h.tendedRight.step hm₁'
  refine ⟨⟨⟨hleft.poised, hright.poised, h.depth, hspawned, hroots, h.free, h.unique_left,
    h.unique_right⟩, hleft, hright, hthreads, hbind⟩, ?_⟩
  intro n n' hn
  exact ⟨hn.resembles, hn.left, hn.right⟩

theorem Twins.addRoot (h : Twins β m m') (hn : Handed β m m' n n') :
    Onward β m m' β (m.addRoot n).2 (m'.addRoot n').2 :=
  h.amend (.addRoot m n hn.left) (.addRoot m' n' hn.right)
    (List.rel_append h.roots (.cons hn.resembles .nil)) h.spawned h.threads h.bindFree

theorem Twins.spawn (h : Twins β m m') {code : List Instruction}
    (hcode : ∀ i ∈ code, i.builtin ≠ .bind) {ns ns' : List Node}
    (hns : List.Forall₂ (Handed β m m') ns ns') :
    Agree (fun r r' => Onward β m m' β r.2 r'.2) (m.spawn code ns) (m'.spawn code ns') := by
  obtain ⟨hresembles, hleft, hright⟩ := forall_handed hns
  have hstep : ∀ r, m.spawn code ns = .ok r → CarefulStep m r.2 := fun r hr =>
    .spawn code ns hleft hr
  have hstep' : ∀ r, m'.spawn code ns' = .ok r → CarefulStep m' r.2 := fun r hr =>
    .spawn code ns' hright hr
  unfold Machine.spawn at hstep hstep' ⊢
  rw [← hns.length_eq] at hstep' ⊢
  -- the code is refused by both machines or by neither
  cases hcheck : code.forM (Machine.checkInstruction ns.length) with
  | error e => exact .error e
  | ok u =>
    rw [hcheck] at hstep hstep'
    have hid : (⟨m.scheduler.spawned + 1⟩ : ThreadId) = ⟨m'.scheduler.spawned + 1⟩ := by
      rw [h.spawned]
    refine .ok (h.amend (hstep _ rfl) (hstep' _ rfl) h.roots ?_ ?_ ?_)
    · show m.scheduler.spawned + 1 = m'.scheduler.spawned + 1
      rw [h.spawned]
    · exact List.rel_append h.threads
        (.cons ⟨⟨hid, rfl, rfl, hresembles⟩, .active rfl rfl⟩ .nil)
    · intro t ht
      rcases List.mem_append.mp ht with ht | ht
      · exact h.bindFree t ht
      · rw [List.mem_singleton.mp ht]
        exact hcode

theorem Twins.kill (h : Twins β m m') (id : ThreadId) :
    Agree (Onward β m m' β) (m.kill id) (m'.kill id) := by
  have hstep : ∀ m₁, m.kill id = .ok m₁ → CarefulStep m m₁ := fun m₁ hk => .kill id hk
  have hstep' : ∀ m₁, m'.kill id = .ok m₁ → CarefulStep m' m₁ := fun m₁ hk => .kill id hk
  unfold Machine.kill Scheduler.kill Scheduler.thread? at hstep hstep' ⊢
  rcases find?_sameIds (fun _ _ ht => ht.id) h.threads id with ⟨hf, hf'⟩ | ⟨t, t', hf, hf', -⟩
  · rw [hf, hf']
    exact .error _
  · rw [hf] at hstep ⊢
    rw [hf'] at hstep' ⊢
    refine .ok (h.amend (hstep _ rfl) (hstep' _ rfl) h.roots h.spawned ?_ ?_)
    · -- mates have the same number
      refine List.rel_filter (fun t t' ht => ?_) h.threads
      show (t.id != id) = true ↔ (t'.id != id) = true
      rw [ht.id]
    · intro t ht
      exact h.bindFree t (List.mem_of_mem_filter ht)

/-! ### Binding a variable -/

/-- The host binds `v`, which leads to `target`, to a node that does not. -/
structure Assigns (m : Machine) (v target : VarRef) (x : Node) (m₁ : Machine) : Prop where
  trusts : m.Trusts (.variable v)
  leads : m.heap.deref (.variable v) = .ok (.variable target)
  apart : m.heap.deref x ≠ .ok (.variable target)
  bind : m.bind v x = .ok (.ok m₁)
  advances : m.Advances m₁

namespace Assigns

variable {v target : VarRef} {x : Node}

/-- The value goes to the target and unit to controls, and nothing to any other variable. -/
theorem cells (hb : Assigns m v target x m₁) (hm : m.Poised) :
    m₁.heap.cell target = .ok (.bound x) ∧
      ∀ u, u ≠ target → m.Trusts (.variable u) → m₁.heap.cell u = m.heap.cell u := by
  obtain ⟨htarget, hother⟩ :=
    Machine.cell_of_summoned hm.waits.nodup hb.leads hb.apart hb.bind
  refine ⟨htarget, fun u hut hu => ?_⟩
  -- the host has kept its hands off the controls, which lead to themselves or to unit
  have hown : ∀ c u, m.heap.IsControl c →
      (m.withBound target x).heap.deref (.variable c) = .ok (.variable u) → u = c := by
    intro c u hc hcu
    have hct : c ≠ target := by
      rintro rfl
      exact (hm.orderly.heap.trusted_deref hb.trusts hb.leads).free c rfl hc
    have hcell : (m.withBound target x).heap.cell c = m.heap.cell c := Heap.cell_setCell_ne _ hct
    rcases hm.orderly.heap.controls hc with hunit | ⟨ids, hids⟩
    · rw [Heap.deref_bound (hcell.trans hunit), Heap.deref_of_value rfl] at hcu
      cases hcu
    · rw [Heap.deref_unbound (hcell.trans hids)] at hcu
      cases hcu
      rfl
  exact (hother u hut).2 fun hs => hu.free u rfl (Machine.isControl_of_summoned hown hs)

/-- The target leads to what the value leads to. -/
theorem deref_target (hb : Assigns m v target x m₁) (hm : m.Poised) :
    m₁.heap.deref (.variable target) = m₁.heap.deref x :=
  Heap.deref_bound (hb.cells hm).1

/-- A variable without a value has none afterwards, unless it is the target. -/
theorem free (hb : Assigns m v target x m₁) (hm : m.Poised) {u : VarRef} (hu : m.Free u)
    (hut : u ≠ target) : m₁.Free u := by
  obtain ⟨htrusts, ls, hcell⟩ := hu
  exact ⟨hb.advances.trusts htrusts, ls, ((hb.cells hm).2 u hut htrusts).trans hcell⟩

/-- Nothing but cells and threads is touched. -/
theorem cascade (hb : Assigns m v target x m₁) (hm : m.Poised) :
    ∃ ids, Machine.Cascade m m₁ ids := by
  obtain ⟨ids, hc, -⟩ := Machine.cascade_of_bind hm.waits.nodup hb.bind
  exact ⟨ids, hc⟩

end Assigns

/-- A thread that has calls to make still has them when it is woken; others are not woken. -/
theorem Thread.wakeIf_state (ids : List ThreadId) (t : Thread) :
    ∃ state, t.wakeIf ids = { t with state } ∧
      (state = t.state ∨ t.state.isActive = true ∧ state.isActive = true) := by
  unfold Thread.wakeIf
  split
  · next hw =>
    refine ⟨.runnable, rfl, .inr ⟨?_, rfl⟩⟩
    cases hs : t.state with
    | runnable => rfl
    | waiting v => rfl
    | terminated => rw [hs] at hw; cases hw.1
    | failed e => rw [hs] at hw; cases hw.1
  · exact ⟨t.state, rfl, .inl rfl⟩

theorem Akin.isActive {s s' : ThreadState} (hs : Akin β a b s s') : s.isActive = s'.isActive := by
  cases hs with
  | active ha ha' => rw [ha, ha']
  | terminated => rfl
  | failed _ => rfl

/-- Other threads may be woken here than there. -/
theorem Mates.wakeIf {t t' : Thread} (ht : Mates β a b t t') (ids ids' : List ThreadId) :
    Mates β a b (t.wakeIf ids) (t'.wakeIf ids') := by
  obtain ⟨s, he, hs⟩ := t.wakeIf_state ids
  obtain ⟨s', he', hs'⟩ := t'.wakeIf_state ids'
  rw [he, he']
  refine ⟨{ ht.toPeers with }, ?_⟩
  show Akin β a b s s'
  -- one of them may be woken and the other not, but then both have calls to make
  have hactive := ht.state.isActive
  rcases hs with rfl | ⟨ha, hs⟩
  · rcases hs' with rfl | ⟨ha', hs'⟩
    · exact ht.state
    · exact .active (hactive.trans ha') hs'
  · rcases hs' with rfl | ⟨-, hs'⟩
    · exact .active hs (hactive.symm.trans ha)
    · exact .active hs hs'

/-- The value leads to the target here if it does so there. -/
theorem Abreast.leads (h : Abreast β m m') {x x' : Node} (hx : Resembles β m.view m'.view x x')
    {u u' : VarRef} (hu : β u u') (he : m.heap.deref x = .ok (.variable u)) :
    m'.heap.deref x' = .ok (.variable u') := by
  obtain ⟨d, d', hd, hd', hm⟩ := hx
  have hdu : m.view.heap.deref x = .ok (.variable u) := he
  rw [hd] at hdu
  cases hdu
  cases hm with
  | «variable» hv =>
    rw [h.unique_left hu hv]
    exact hd'

/-- What both machines know resembles each other after a bind on both sides. -/
theorem Abreast.resembles_bind (h : Abreast β m m') {v v' u u' : VarRef} {x x' : Node}
    (hb : Assigns m v u x m₁) (hb' : Assigns m' v' u' x' m₁') (hu : β u u')
    (hx : Resembles β m.view m'.view x x') (hn : Resembles β m.view m'.view n n') :
    Resembles (fun y y' => β y y' ∧ y ≠ u) m₁.view m₁'.view n n' := by
  obtain ⟨ids, hc⟩ := hb.cascade h.left
  obtain ⟨ids', hc'⟩ := hb'.cascade h.right
  have htable : m₁.view.table = m.view.table := by
    rw [hc.rest]
    rfl
  have htable' : m₁'.view.table = m'.view.table := by
    rw [hc'.rest]
    rfl
  -- related variables other than the targets are left as they are
  have hother : ∀ {y y' : VarRef}, β y y' → y ≠ u → m₁.Free y ∧ m₁'.Free y' := by
    intro y y' hy hyu
    have hyu' : y' ≠ u' := fun e => hyu (h.unique_right hy (e ▸ hu))
    exact ⟨hb.free h.left (h.free hy).1 hyu, hb'.free h.right (h.free hy).2 hyu'⟩
  apply hn.grow htable htable' hc.grows hc'.grows
  intro y y' hy _ _
  by_cases hyu : y = u
  · -- the targets lead to the values
    subst hyu
    have hyu' : y' = u' := h.unique_left hy hu
    subst hyu'
    obtain ⟨d, d', hd, hd', hm⟩ := hx
    have hvalue : Alike { resemblance β m.view m'.view with var := fun z z' => β z z' ∧ z ≠ y }
        m₁.view m₁'.view x x' := by
      rcases d.value_or_variable with hval | ⟨z, rfl⟩
      · exact hm.grow htable htable' hc.grows hc'.grows hd hd' hval
      · cases hm with
        | @«variable» _ z' hz =>
          have hzy : z ≠ y := fun e => hb.apart (e ▸ hd)
          obtain ⟨hfree, hfree'⟩ := hother hz hzy
          exact ⟨_, _, (hc.grows.deref hd).trans hfree.deref,
            (hc'.grows.deref hd').trans hfree'.deref, .variable ⟨hz, hzy⟩⟩
    obtain ⟨e, e', he, he', hm₁⟩ := hvalue
    exact ⟨e, e', (hb.deref_target h.left).trans he, (hb'.deref_target h.right).trans he', hm₁⟩
  · obtain ⟨hfree, hfree'⟩ := hother hy hyu
    exact ⟨_, _, hfree.deref, hfree'.deref, .variable ⟨hy, hyu⟩⟩

/-- Both targets are given their values, and are related no more. -/
theorem Twins.assign (h : Twins β m m') {v v' u u' : VarRef} {x x' : Node}
    (hb : Assigns m v u x m₁) (hb' : Assigns m' v' u' x' m₁') (hu : β u u')
    (hx : Handed β m m' x x') : Onward β m m' (fun y y' => β y y' ∧ y ≠ u) m₁ m₁' := by
  obtain ⟨ids, hc⟩ := hb.cascade h.left
  obtain ⟨ids', hc'⟩ := hb'.cascade h.right
  have hleft := h.tendedLeft.step (.bind v x hb.trusts hx.left hb.bind)
  have hright := h.tendedRight.step (.bind v' x' hb'.trusts hx.right hb'.bind)
  -- what resembled each other still does, with the variable that got its value left out of the
  -- pairs
  have himp : ∀ n n', Resembles β m.view m'.view n n' →
      Resembles (fun y y' => β y y' ∧ y ≠ u) m₁.view m₁'.view n n' := fun n n' hn =>
    h.resembles_bind hb hb' hu hx.resembles hn
  refine ⟨⟨⟨hleft.poised, hright.poised, ?_, ?_, ?_, ?_, ?_, ?_⟩, hleft, hright, ?_, ?_⟩, ?_⟩
  · rw [hc.rest, hc'.rest]
    exact h.depth
  · rw [hc.spawned, hc'.spawned]
    exact h.spawned
  · have hroots : m₁.roots = m.roots := by rw [hc.rest]
    have hroots' : m₁'.roots = m'.roots := by rw [hc'.rest]
    rw [hroots, hroots']
    exact h.roots.imp himp
  · intro y y' hy
    have hyu' : y' ≠ u' := fun e => hy.2 (h.unique_right hy.1 (e ▸ hu))
    exact ⟨hb.free h.left (h.free hy.1).1 hy.2, hb'.free h.right (h.free hy.1).2 hyu'⟩
  · intro y z z' hy hz
    exact h.unique_left hy.1 hz.1
  · intro y z z' hy hz
    exact h.unique_right hy.1 hz.1
  -- both sides wake the threads that listened, and a wake leaves the fate of a thread as it is
  · rw [hc.threads, hc'.threads]
    refine List.forall₂_map_left_iff.mpr (List.forall₂_map_right_iff.mpr ?_)
    exact h.threads.imp fun t t' ht => (ht.imp himp).wakeIf ids ids'
  · intro t ht
    rw [hc.threads] at ht
    obtain ⟨y, hy, rfl⟩ := List.mem_map.mp ht
    obtain ⟨state, hstate, -⟩ := y.wakeIf_state ids
    rw [hstate]
    exact h.bindFree y hy
  · intro n n' hn
    exact ⟨himp n n' hn.resembles, hb.advances.trusts hn.left, hb'.advances.trusts hn.right⟩

/-- A bind of related variables succeeds on both machines. -/
theorem Twins.bind (h : Twins β m m') {v v' u u' : VarRef} {x x' : Node}
    (hv : Handed β m m' (.variable v) (.variable v')) (hx : Handed β m m' x x')
    (hd : m.heap.deref (.variable v) = .ok (.variable u))
    (hd' : m'.heap.deref (.variable v') = .ok (.variable u')) (hu : β u u') :
    ∃ m₁ m₁' β₁, m.bind v x = .ok (.ok m₁) ∧ m'.bind v' x' = .ok (.ok m₁') ∧
      Onward β m m' β₁ m₁ m₁' := by
  by_cases he : m.heap.deref x = .ok (.variable u)
  · -- the value leads to the target on both machines, and nothing is done
    have he' := h.leads hx.resembles hu he
    exact ⟨m, m', β, Machine.bindWithin_self hd he _, Machine.bindWithin_self hd' he' _, h,
      fun hn => hn⟩
  · have he' : m'.heap.deref x' ≠ .ok (.variable u') := fun e =>
      he (h.toAbreast.flip.leads hx.resembles.flip hu e)
    obtain ⟨m₁, hb, ha⟩ := h.left.orderly.bind h.left.waits hv.left hx.left hd
    obtain ⟨m₁', hb', ha'⟩ := h.right.orderly.bind h.right.waits hv.right hx.right hd'
    exact ⟨m₁, m₁', _, hb, hb',
      h.assign ⟨hv.left, hd, he, hb, ha⟩ ⟨hv.right, hd', he', hb', ha'⟩ hu hx⟩

/-! ### A run -/

theorem Akin.flip {s s' : ThreadState} (hs : Akin β a b s s') : Akin (flip β) b a s' s := by
  cases hs with
  | active ha ha' => exact .active ha' ha
  | terminated => exact .terminated
  | failed he => exact .failed he.flip

theorem Twins.flip (h : Twins β m m') : Twins (flip β) m' m where
  toAbreast := h.toAbreast.flip
  tendedLeft := h.tendedRight
  tendedRight := h.tendedLeft
  threads := forall₂_flip h.threads fun _ _ ht => ⟨ht.toPeers.flip, ht.state.flip⟩
  bindFree := by
    intro t' ht'
    have hcode := forall₂_imp_left h.threads fun t ht t' hmates =>
      (show t'.BindFree by
        unfold Thread.BindFree
        rw [← hmates.code]
        exact h.bindFree t ht)
    exact forall_of_forall₂ hcode.flip (fun _ _ hfree => hfree) t' ht'

/-- The variables that are related to the same one. -/
def Coupled (β : VarRef → VarRef → Prop) : VarRef → VarRef → Prop := Relation.Comp β (flip β)

/-- A thread that has a mate is at the start of its way. -/
theorem Mates.stands {t t' : Thread} (ht : Mates β m.view b t t') :
    Stands (Coupled β) m m.view (m.fate t) t := by
  have hpeers : Peers (Coupled β) m.view m.view t t := ht.toPeers.trans ht.toPeers.flip
  have hs := ht.state
  generalize hst : t.state = s at hs
  generalize t'.state = s' at hs
  cases hs with
  | active ha _ => exact .going (hst ▸ ha) (hst ▸ ha) rfl hpeers
  | terminated =>
    refine .done hst ?_ hpeers
    unfold Machine.fate
    rw [hst]
  | failed he =>
    refine .failed hst ?_ hpeers (he.trans he.flip)
    unfold Machine.fate
    rw [hst]

theorem Twins.course (h : Twins β m m') : Course (Coupled β) m m where
  toAbreast := h.toAbreast.trans h.toAbreast.flip
  threads := List.forall₂_same.mpr (forall_of_forall₂ h.threads fun _ _ ht => ht.stands)
  bindFree := h.bindFree

/-- Two threads have stopped at the same place. It is left open which variables they wait for. -/
def Halted (β : VarRef → VarRef → Prop) (a b : View) (t t' : Thread) : Prop :=
  ThreadAlike (fun _ _ => True) (resemblance β a b) a b t t'

theorem Halted.mates {t t' : Thread} (ht : Halted β a b t t') : Mates β a b t t' := by
  refine ⟨⟨ht.id, ht.code, ht.pc, ht.registers⟩, ?_⟩
  have hs := ht.state
  generalize t.state = s at hs ⊢
  generalize t'.state = s' at hs ⊢
  cases hs with
  | runnable => exact .active rfl rfl
  | terminated => exact .terminated
  | waiting _ => exact .active rfl rfl
  | failed he => exact .failed he

/-- Threads that have met the same fate have stopped at the same place. -/
theorem Met.halted {βL βR : VarRef → VarRef → Prop} {F F' : Except Fault (Thread × Ending)}
    {t t' : Thread} (ht : Met βL m a F t) (ht' : Met βR m' b F' t')
    (hF : Agree (FateAlike β m.view m'.view) F F') :
    Halted (Relation.Comp (flip βL) (Relation.Comp β βR)) a b t t' := by
  obtain ⟨u, e, rfl, hpeers, hends⟩ := ht
  obtain ⟨u', e', rfl, hpeers', hends'⟩ := ht'
  cases hF with
  | ok hf =>
    obtain ⟨hsame, hending⟩ := hf
    have hthrough := hpeers.flip.trans (hsame.trans hpeers')
    refine ⟨hthrough.id, hthrough.code, hthrough.pc, hthrough.registers, ?_⟩
    generalize t.state = s at hends ⊢
    generalize t'.state = s' at hends' ⊢
    -- the fates agree on how the thread ends, and each side has come to that end
    cases hending with
    | done =>
      cases hends
      cases hends'
      exact .terminated
    | blocked =>
      cases hends
      cases hends'
      exact .waiting trivial
    | raised he =>
      cases hends with
      | raised hleft =>
        cases hends' with
        | raised hright => exact .failed (hleft.flip.trans (he.trans hright))

/-- A run of both machines ends, and leaves twins whose threads have stopped at the same places. -/
theorem Twins.run (h : Twins β m m') :
    ∃ r r' γ, m.run = .ok r ∧ m'.run = .ok r' ∧ Twins γ r.2 r'.2 ∧
      List.Forall₂ (Halted γ r.2.view r'.2.view) r.2.scheduler.threads r'.2.scheduler.threads := by
  obtain ⟨report, m₁, hrun, -⟩ := h.left.orderly.run h.left.waits
  obtain ⟨report', m₁', hrun', -⟩ := h.right.orderly.run h.right.waits
  obtain ⟨βL, hL, hfree, hmetL⟩ := h.course.run h.tendedLeft.reachable hrun
  obtain ⟨βR, hR, -, hmetR⟩ := h.flip.course.run h.tendedRight.reachable hrun'
  -- the fates were the same before the run
  have hfates : List.Forall₂
      (fun t t' => Agree (FateAlike β m.view m'.view) (m.fate t) (m'.fate t'))
      m.scheduler.threads m'.scheduler.threads :=
    forall₂_imp_left h.threads fun t ht t' hmates => h.fate (h.bindFree t ht) hmates
  have hhalted : List.Forall₂
      (Halted (Relation.Comp (fun v v' => βL v' v) (Relation.Comp β βR)) m₁.view m₁'.view)
      m₁.scheduler.threads m₁'.scheduler.threads := by
    have hright : List.Forall₂ (fun t₀ t' => ∃ F',
        Agree (FateAlike β m.view m'.view) (m.fate t₀) F' ∧ Met βR m' m₁'.view F' t')
        m.scheduler.threads m₁'.scheduler.threads :=
      forall₂_trans hfates hmetR fun _ _ _ hF ht' => ⟨_, hF, ht'⟩
    refine forall₂_trans hmetL.flip hright fun t t₀ t' ht hrest => ?_
    obtain ⟨F', hF, ht'⟩ := hrest
    exact Met.halted ht ht' hF
  refine ⟨_, _, _, hrun, hrun', ⟨hL.flip.trans (h.toAbreast.trans hR), ?_, ?_, ?_, hfree⟩, hhalted⟩
  · exact h.tendedLeft.step (.run hrun)
  · exact h.tendedRight.step (.run hrun')
  · exact hhalted.imp fun _ _ ht => ht.mates

end Dataflow
