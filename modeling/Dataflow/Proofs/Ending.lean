import Mathlib.Data.Finset.Card
import Dataflow.Proofs.Collector

/-! # Relocations end

  A collector enters every record and every unbound variable once, and between two of them lies
  a chain of bound variables, which visits no variable twice. So a relocation is nested at most as
  deeply as there are things to be entered, times the length of a chain. `Survey.unmet` counts
  what has not been entered yet. It never grows, and it shrinks with every place that is reserved,
  whatever cycles the heap has.
-/

namespace Dataflow

namespace Survey

variable {h : Heap} {s s' : Survey}

/-! ### What has not been entered yet -/

def unmetRecords (h : Heap) (s : Survey) : Finset Nat :=
  {i ∈ Finset.range h.recordCount | (⟨i⟩ : RecordRef) ∉ s.records}

def unmetVars (h : Heap) (s : Survey) : Finset Nat :=
  {i ∈ Finset.range h.variableCount | (⟨i⟩ : VarRef) ∉ s.vars}

/-- The number of records and variables of a heap that a survey has not met. -/
def unmet (h : Heap) (s : Survey) : Nat := (s.unmetRecords h).card + (s.unmetVars h).card

theorem unmet_le (h : Heap) (s : Survey) : s.unmet h ≤ h.recordCount + h.variableCount := by
  have hrecords := Finset.card_filter_le (Finset.range h.recordCount)
    fun i => (⟨i⟩ : RecordRef) ∉ s.records
  have hvars := Finset.card_filter_le (Finset.range h.variableCount)
    fun i => (⟨i⟩ : VarRef) ∉ s.vars
  rw [Finset.card_range] at hrecords hvars
  exact Nat.add_le_add hrecords hvars

theorem Extends.unmetRecords (he : s.Extends s') : s'.unmetRecords h ⊆ s.unmetRecords h := by
  intro i hi
  simp only [Survey.unmetRecords, Finset.mem_filter] at hi ⊢
  exact ⟨hi.1, fun hm => hi.2 (he.records.subset hm)⟩

theorem Extends.unmetVars (he : s.Extends s') : s'.unmetVars h ⊆ s.unmetVars h := by
  intro i hi
  simp only [Survey.unmetVars, Finset.mem_filter] at hi ⊢
  exact ⟨hi.1, fun hm => hi.2 (he.vars.subset hm)⟩

theorem Extends.unmet (he : s.Extends s') : s'.unmet h ≤ s.unmet h :=
  Nat.add_le_add (Finset.card_le_card he.unmetRecords) (Finset.card_le_card he.unmetVars)

theorem unmet_addRecord {ref : RecordRef} (hin : h.InRange (.record ref))
    (hnew : ref ∉ s.records) : unmet h { s with records := s.records ++ [ref] } < s.unmet h := by
  have hgrows := Extends.addRecord s ref
  have hlt : ref.index < h.recordCount := by
    simpa [Heap.InRange, Heap.containsRecord, Heap.recordCount] using hin
  have hcard : (unmetRecords h { s with records := s.records ++ [ref] }).card <
      (s.unmetRecords h).card := by
    refine Finset.card_lt_card ⟨hgrows.unmetRecords, fun hsub => ?_⟩
    have hm : ref.index ∈ s.unmetRecords h := by simp [unmetRecords, hlt, hnew]
    simpa [unmetRecords] using hsub hm
  exact Nat.add_lt_add_of_lt_of_le hcard (Finset.card_le_card hgrows.unmetVars)

theorem unmet_addVar {v : VarRef} (hin : h.InRange (.variable v)) (hnew : v ∉ s.vars) :
    unmet h { s with vars := s.vars ++ [v] } < s.unmet h := by
  have hgrows := Extends.addVar s v
  have hlt : v.index < h.variableCount := by
    simpa [Heap.InRange, Heap.containsVariable, Heap.variableCount] using hin
  have hcard : (unmetVars h { s with vars := s.vars ++ [v] }).card < (s.unmetVars h).card := by
    refine Finset.card_lt_card ⟨hgrows.unmetVars, fun hsub => ?_⟩
    have hm : v.index ∈ s.unmetVars h := by simp [unmetVars, hlt, hnew]
    simpa [unmetVars] using hsub hm
  exact Nat.add_lt_add_of_le_of_lt (Finset.card_le_card hgrows.unmetRecords) hcard

end Survey

namespace Collector

variable {α β : Type} {h : Heap} {busy : List Node} {c c' : Collector}

/-! ### Parts that succeed -/

/-- A part of a collection has a result. -/
def Succeeds (x : Collecting α) (c : Collector) : Prop := ∃ a c', x c = .ok (a, c')

theorem succeeds_pure (a : α) (c : Collector) : Succeeds (pure a) c := ⟨a, c, rfl⟩

theorem Succeeds.bind {x : Collecting α} {f : α → Collecting β} (hx : Succeeds x c)
    (hf : ∀ a c', x c = .ok (a, c') → Succeeds (f a) c') : Succeeds (x >>= f) c := by
  obtain ⟨a, c', ha⟩ := hx
  obtain ⟨b, c'', hb⟩ := hf a c' ha
  exact ⟨b, c'', bind_run.mpr ⟨a, c', ha, hb⟩⟩

/-- A part with a result goes on with what is read from the old heap. -/
theorem succeeds_lift {x : Except Fault α} {a : α} (hx : x = .ok a) {f : α → Collecting β}
    (hf : Succeeds (f a) c) : Succeeds (liftM x >>= f) c := by
  refine .bind ⟨a, c, lift_run.mpr ⟨hx, rfl⟩⟩ fun b c' hb => ?_
  obtain ⟨hb, rfl⟩ := lift_run.mp hb
  rw [hx] at hb
  cases hb
  exact hf

/-- A list is relocated if its members are, in every state with as little left to be entered. -/
theorem succeeds_mapM {nodes : α → List Node} {value : Survey → α → β} {f : α → Collecting β}
    (hf : Relocates h nodes value f) {bound : Nat} {xs : List α}
    (hxs : ∀ x ∈ xs, ∀ {c}, HalfBuilt h busy c → c.survey.unmet h ≤ bound → Succeeds (f x) c)
    (hb : HalfBuilt h busy c) (hbound : c.survey.unmet h ≤ bound) : Succeeds (xs.mapM f) c := by
  induction xs generalizing c with
  | nil => exact succeeds_pure [] c
  | cons x xs ih =>
    rw [List.mapM_cons]
    refine .bind (hxs x (List.mem_cons_self ..) hb hbound) fun y c₁ hx => ?_
    obtain ⟨hv, hb₁, -⟩ := hf.spec hb hx
    have hbound₁ : c₁.survey.unmet h ≤ bound := Nat.le_trans hv.grows.unmet hbound
    refine .bind (ih (fun x hx => hxs x (List.mem_cons_of_mem _ hx)) hb₁ hbound₁) ?_
    exact fun ys c₂ _ => succeeds_pure _ c₂

theorem succeeds_literal (l : Literal) (c : Collector) : Succeeds (relocateLiteral l) c := by
  cases l with
  | atom a => exact .bind ⟨_, _, intern_run a.content c⟩ fun _ _ _ => succeeds_pure _ _
  | _ => exact succeeds_pure _ c

theorem succeeds_feature (f : Feature) (c : Collector) : Succeeds (relocateFeature f) c := by
  cases f with
  | int i => exact succeeds_pure _ c
  | literal l => exact .bind (succeeds_literal l c) fun _ _ _ => succeeds_pure _ _

theorem succeeds_arity (a : Arity) (hb : HalfBuilt h busy c) : Succeeds (relocateArity a) c := by
  cases a with
  | tuple => exact succeeds_pure _ c
  | features names =>
    have hnames : Succeeds (names.mapM relocateFeature) c :=
      succeeds_mapM (relocates_feature h) (fun f _ c _ _ => succeeds_feature f c) hb
        (Nat.le_refl _)
    exact .bind hnames fun _ _ _ => succeeds_pure _ _

theorem succeeds_listener {move : Node → Collecting Node} {l : Listener}
    (hl : ∀ v, l = .control v → Succeeds (move (.variable v)) c) :
    Succeeds (relocateListener move l) c := by
  cases l with
  | thread id => exact succeeds_pure _ c
  | control v => exact .bind (hl v rfl) fun _ _ _ => succeeds_pure _ _

section Parts

variable {move : Node → Collecting Node}
  (hmove : Relocates h (fun n => [n]) (fun s => s.moved h) move)

include hmove

theorem succeeds_parts {r : Record} {bound : Nat}
    (hfields : ∀ x ∈ r.fields, ∀ {c}, HalfBuilt h busy c → c.survey.unmet h ≤ bound →
      Succeeds (move x) c)
    (hb : HalfBuilt h busy c) (hbound : c.survey.unmet h ≤ bound) :
    Succeeds (relocateParts move r) c := by
  refine .bind (succeeds_literal r.label c) fun label c₁ hlabel => ?_
  obtain ⟨hv₁, hb₁, -⟩ := (relocates_literal h).spec hb hlabel
  refine .bind (succeeds_arity r.arity hb₁) fun arity c₂ harity => ?_
  obtain ⟨hv₂, hb₂, -⟩ := (relocates_arity h).spec hb₁ harity
  have hbound₂ := Nat.le_trans (hv₁.grows.trans hv₂.grows).unmet hbound
  exact .bind (succeeds_mapM hmove hfields hb₂ hbound₂) fun _ _ _ => succeeds_pure _ _

/-- A record is relocated if its fields are when less is left to be entered. -/
theorem succeeds_record {source : RecordRef} {r : Record} (hr : h.record source = .ok r)
    (hb : HalfBuilt h busy c)
    (hfields : ∀ x ∈ r.fields, ∀ {busy c'}, HalfBuilt h busy c' →
      c'.survey.unmet h < c.survey.unmet h → Succeeds (move x) c') :
    Succeeds (relocateRecord h move source) c := by
  refine .bind ⟨c, c, rfl⟩ fun d c₀ hget => ?_
  obtain ⟨rfl, rfl⟩ := get_run.mp hget
  cases hl : c.records.lookup source with
  | some target => exact succeeds_pure target c
  | none =>
    have hnew : source ∉ c.survey.records := not_mem_of_lookup hl
    have hless := Survey.unmet_addRecord (Heap.inRange_of_record hr) hnew
    refine .bind ⟨_, _, rfl⟩ fun target c₁ hreserve => ?_
    cases hreserve
    refine succeeds_lift hr (.bind ?_ fun _ _ _ => .bind ⟨_, _, rfl⟩ fun _ _ _ =>
      succeeds_pure _ _)
    -- one record less is left when the parts are relocated
    rw [← survey_addRecord] at hless
    exact succeeds_parts hmove
      (fun x hx _ hb' hbound => hfields x hx hb' (Nat.lt_of_le_of_lt hbound hless))
      (hb.reserveRecord hnew) (Nat.le_refl _)

/-- An unbound variable is relocated if the controls that listen to it are when less is left to be
    entered. -/
theorem succeeds_variable {source : VarRef} {ls : List Listener}
    (hc : h.cell source = .ok (.unbound ls)) (hb : HalfBuilt h busy c)
    (hcontrols : ∀ v, .control v ∈ ls → ∀ {busy c'}, HalfBuilt h busy c' →
      c'.survey.unmet h < c.survey.unmet h → Succeeds (move (.variable v)) c') :
    Succeeds (relocateVariable h move source) c := by
  refine succeeds_lift hc (.bind ⟨c, c, rfl⟩ fun d c₀ hget => ?_)
  obtain ⟨rfl, rfl⟩ := get_run.mp hget
  cases hl : c.vars.lookup source with
  | some target => exact succeeds_pure _ c
  | none =>
    have hnew : source ∉ c.survey.vars := not_mem_of_lookup hl
    have hless := Survey.unmet_addVar (Heap.inRange_of_cell hc) hnew
    refine .bind ⟨_, _, rfl⟩ fun target c₁ hreserve => ?_
    cases hreserve
    refine .bind ?_ fun _ _ _ => .bind ⟨_, _, rfl⟩ fun _ _ _ => succeeds_pure _ _
    rw [← survey_addVar] at hless
    refine succeeds_mapM (relocates_listener hmove) (fun l hl _ hb' hbound => ?_)
      (hb.reserveVariable hnew) (Nat.le_refl _)
    exact succeeds_listener fun v hv =>
      hcontrols v (hv ▸ hl) hb' (Nat.lt_of_le_of_lt hbound hless)

end Parts

/-! ### Nodes -/

section Nodes

variable {start : List Node}
  (hin : ∀ {n : Node}, h.Reaches start n → ∃ d, h.deref n = .ok d ∧ h.InRange d)

include hin

/-- A node is relocated within a depth that allows for a chain at each place that is left, and for
    the chain of the node. -/
theorem succeeds_of_path {n : Nat} {x e : Node} {vs : List VarRef} (hx : h.Reaches start x)
    (hp : h.Path x vs e) (hb : HalfBuilt h busy c)
    (hn : c.survey.unmet h * (h.variableCount + 1) + vs.length < n) :
    Succeeds (relocate h n x) c := by
  induction n generalizing x e vs busy c with
  | zero => omega
  | succ n ih =>
    -- what is reached from an entered place has one place less to go, and a chain of its own
    have hnext : ∀ {x busy c'}, h.Reaches start x → HalfBuilt h busy c' →
        c'.survey.unmet h < c.survey.unmet h → Succeeds (relocate h n x) c' := by
      intro x busy c' hx hb' hless
      obtain ⟨d, hd, -⟩ := hin hx
      obtain ⟨ws, hws⟩ := Heap.path_of_deref hd
      have hlen := hws.length_le
      have hmul := Nat.mul_le_mul_right (h.variableCount + 1) hless
      rw [Nat.succ_mul] at hmul
      exact ih hx hws hb' (by omega)
    obtain ⟨d, hd, hind⟩ := hin hx
    cases x with
    | atom a => exact .bind ⟨_, _, intern_run a.content c⟩ fun _ _ _ => succeeds_pure _ _
    | record ref =>
      rw [Heap.deref_of_value rfl] at hd
      cases hd
      obtain ⟨r, hr⟩ := Heap.record_of_inRange hind
      have hrecord := succeeds_record (relocates h n) hr hb fun x hm {_ _} =>
        hnext (.edge hx hr (by simp [Record.edges, hm]))
      exact .bind hrecord fun _ _ _ => succeeds_pure _ _
    | «variable» v =>
      cases hp with
      | @bound _ x _ vs hc hp =>
        simp only [List.length_cons] at hn
        exact succeeds_lift hc (ih (.value hx hc) hp hb (by omega))
      | stop hs =>
        cases hc : h.cell v with
        | error f => rw [Heap.deref_dangling hc] at hd; cases hd
        | ok cell =>
          cases cell with
          | bound x => exact absurd hc (hs v x rfl)
          | unbound ls =>
            exact succeeds_variable (relocates h n) hc hb fun w hm {_ _} =>
              hnext (.control hx hc hm)
    | _ => exact succeeds_pure _ c

/-- What is reachable is relocated within the depth of the heap, whatever has been moved before. -/
theorem succeeds_relocate {n : Nat} (hn : h.relocationDepth ≤ n) {x : Node}
    (hx : h.Reaches start x) (hb : HalfBuilt h busy c) : Succeeds (relocate h n x) c := by
  obtain ⟨d, hd, -⟩ := hin hx
  obtain ⟨vs, hp⟩ := Heap.path_of_deref hd
  refine succeeds_of_path hin hx hp hb (Nat.lt_of_lt_of_le ?_ hn)
  have hlen := hp.length_le
  have hmul := Nat.mul_le_mul_right (h.variableCount + 1) (c.survey.unmet_le h)
  unfold Heap.relocationDepth
  rw [Nat.succ_mul]
  omega

theorem succeeds_nodes {n : Nat} (hn : h.relocationDepth ≤ n) {xs : List Node}
    (hxs : ∀ x ∈ xs, h.Reaches start x) (hb : HalfBuilt h busy c) :
    Succeeds (xs.mapM (relocate h n)) c :=
  succeeds_mapM (relocates h n) (fun x hx _ hb' _ => succeeds_relocate hin hn (hxs x hx) hb') hb
    (Nat.le_refl _)

theorem succeeds_thread {n : Nat} (hn : h.relocationDepth ≤ n) {t : Thread}
    (ht : ∀ x ∈ t.nodes, h.Reaches start x) (hb : HalfBuilt h busy c) :
    Succeeds (relocateThread (relocate h n) t) c := by
  rw [threadNodes_eq] at ht
  have hregisters : Succeeds (t.registers.mapM (relocate h n)) c :=
    succeeds_nodes hin hn (fun x hx => ht x (List.mem_append_left _ hx)) hb
  refine .bind hregisters fun registers c₁ hrun => ?_
  obtain ⟨-, hb₁, -⟩ := (relocates_nodes (relocates h n)).spec hb hrun
  have hstate : ∀ x ∈ stateNodes t.state, Succeeds (relocate h n x) c₁ := fun x hx =>
    succeeds_relocate hin hn (ht x (List.mem_append_right _ hx)) hb₁
  refine .bind ?_ fun _ _ _ => succeeds_pure _ _
  cases hs : t.state with
  | waiting v =>
    rw [hs] at hstate
    refine .bind (hstate _ (List.mem_singleton.mpr rfl)) fun y c₂ _ => ?_
    cases y <;> exact succeeds_pure _ c₂
  | failed e =>
    rw [hs] at hstate
    exact .bind (hstate _ (List.mem_singleton.mpr rfl)) fun _ _ _ => succeeds_pure _ _
  | _ => exact succeeds_pure _ _

end Nodes

end Collector

namespace Machine

variable {m : Machine}

open Collector

/-- Nodes are relocated one after the other, within every sufficient depth and with the same
    result: their places in their survey. -/
theorem relocate_nodes_ok (hground : m.heap.Grounded) {ns : List Node}
    (hin : ∀ x, m.heap.Reaches ns x → m.heap.InRange x) :
    ∃ s copy images c, m.survey ns = .ok s ∧ s.copyHeap m.heap = .ok copy ∧
      ns.mapM (s.image m.heap) = .ok images ∧ c.atoms = s.atoms ∧ c.heap = copy ∧
      ∀ n, m.heap.relocationDepth ≤ n →
        (ns.mapM (Collector.relocate m.heap n)).run (.new m) = .ok (images, c) := by
  have hin' := fun {x} => Heap.deref_of_inRange hground (fun {n} => hin n) (n := x)
  have hb := HalfBuilt.initial m.heap [] m.atoms.successor
  -- what a sufficient depth comes to
  have hrun : ∀ n, m.heap.relocationDepth ≤ n → ∃ c : Collector, m.survey ns = .ok c.survey ∧
      HalfBuilt m.heap [] c ∧ (∀ x ∈ ns, c.survey.Covers m.heap x) ∧
      ns.mapM (Collector.relocate m.heap n) (.new m) =
        .ok (ns.map (c.survey.moved m.heap), c) := by
    intro n hn
    obtain ⟨images, c, hrun⟩ := succeeds_nodes hin' hn (fun x hx => .start hx) hb
    obtain ⟨hv, hb', rfl⟩ := (relocates_nodes (relocates m.heap n)).spec hb hrun
    exact ⟨c, hv.ofNodes, hb', hv.covers, hrun⟩
  obtain ⟨c, hs, hb', hcov, -⟩ := hrun _ (Nat.le_refl _)
  refine ⟨c.survey, c.heap, ns.map (c.survey.moved m.heap), c, hs, hb'.copyHeap_eq,
    mapM_ok fun x hx => Survey.image_of_covers (hcov x hx), rfl, rfl, fun n hn => ?_⟩
  obtain ⟨c', hs', hb'', -, hrun'⟩ := hrun n hn
  rw [hs] at hs'
  obtain rfl := hb'.unique hb'' (Except.ok.inj hs')
  exact hrun'

/-- A collection succeeds if nothing that is alive dangles. -/
theorem collect_ok (hground : m.heap.Grounded)
    (hin : ∀ {n : Node}, m.Live n → m.heap.InRange n) : ∃ m', m.collect = .ok m' := by
  have hin' := fun {x} => Heap.deref_of_inRange hground hin (n := x)
  have hdepth := Nat.le_refl m.heap.relocationDepth
  have hmove := relocates m.heap m.heap.relocationDepth
  have hb := HalfBuilt.initial m.heap [] m.atoms.successor
  obtain ⟨roots, c₁, hroots⟩ : Succeeds (m.roots.mapM m.relocate) (.new m) :=
    succeeds_nodes hin' hdepth (fun x hx => .start (List.mem_append_left _ hx)) hb
  obtain ⟨-, hb₁, -⟩ := (relocates_nodes hmove).spec hb hroots
  have hthreads : Succeeds (relocateScheduler m.relocate m.scheduler) c₁ := by
    refine .bind ?_ fun _ _ _ => succeeds_pure _ _
    refine succeeds_mapM (relocates_thread hmove) (fun t ht c hb _ => ?_) hb₁ (Nat.le_refl _)
    refine succeeds_thread hin' hdepth (fun x hx => .start ?_) hb
    exact List.mem_append_right _ (List.mem_flatMap.mpr ⟨t, ht, hx⟩)
  obtain ⟨scheduler, c₂, hscheduler⟩ := hthreads
  refine ⟨_, bind_eq_ok.mpr ⟨_, hroots, bind_eq_ok.mpr ⟨_, hscheduler, rfl⟩⟩⟩

end Machine

end Dataflow
