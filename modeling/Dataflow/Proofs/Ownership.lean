import Dataflow.Ownership
import Dataflow.Proofs.Collecting
import Dataflow.Proofs.Comparison

/-! # When the ownership check ends

  The check that a value holds no foreign atom goes through records depth first and remembers
  nothing. It goes on from a record into one of its parts if all parts before that one are clean.
  It ends with an answer exactly if it never comes back to a record that it is inside of, and with
  it ends the comparison that is guarded by it.

  Records that are built contain records that were there before, and the check does not look
  through variables. But a collection replaces bound variables by their values, so a record that
  contains itself through a variable contains itself directly afterwards. On such a record the
  check does not end.
-/

open Relation (ReflTransGen TransGen)

namespace Dataflow

/-! ### Searching a list -/

section FindSome

variable {α β : Type} {f : α → Except Fault (Option β)} {xs : List α}

theorem findSomeM?_cons {x : α} :
    (x :: xs).findSomeM? f = f x >>= fun found =>
      match found with
      | some b => pure (some b)
      | none => xs.findSomeM? f := by
  rw [List.findSomeM?]
  rfl

/-- A search goes past what gives nothing. -/
theorem findSomeM?_append {before : List α} (hb : ∀ x ∈ before, f x = .ok none) :
    (before ++ xs).findSomeM? f = xs.findSomeM? f := by
  induction before with
  | nil => rfl
  | cons x before ih =>
    rw [List.cons_append, findSomeM?_cons, hb x (List.mem_cons_self ..), ok_bind]
    exact ih fun y hy => hb y (List.mem_cons_of_mem _ hy)

/-- A search that faults at the start faults. -/
theorem findSomeM?_append_error {before : List α} {e : Fault}
    (hb : before.findSomeM? f = .error e) :
    (before ++ xs).findSomeM? f = .error e := by
  induction before with
  | nil => cases hb
  | cons x before ih =>
    rw [findSomeM?_cons] at hb
    rw [List.cons_append, findSomeM?_cons]
    cases hx : f x with
    | error e' =>
      rw [hx] at hb
      exact hb
    | ok found =>
      rw [hx] at hb
      cases found with
      | some b => cases hb
      | none => exact ih hb

theorem findSomeM?_eq_none (hf : xs.findSomeM? f = .ok none) : ∀ x ∈ xs, f x = .ok none := by
  induction xs with
  | nil => nofun
  | cons x xs ih =>
    rw [findSomeM?_cons] at hf
    obtain ⟨found, hx, hf⟩ := bind_eq_ok.mp hf
    cases found with
    | some b => cases hf
    | none =>
      intro y hy
      rcases List.mem_cons.mp hy with rfl | hy
      · exact hx
      · exact ih hf y hy

/-- A search for what is in no member comes to nothing, or faults as a member does. -/
theorem findSomeM?_none_or_error {e : Fault} (hf : ∀ x ∈ xs, f x = .ok none ∨ f x = .error e) :
    xs.findSomeM? f = .ok none ∨ xs.findSomeM? f = .error e := by
  induction xs with
  | nil => exact .inl rfl
  | cons x xs ih =>
    rw [findSomeM?_cons]
    rcases hf x (List.mem_cons_self ..) with hx | hx
    · rw [hx, ok_bind]
      exact ih fun y hy => hf y (List.mem_cons_of_mem _ hy)
    · rw [hx]
      exact .inr rfl

/-- A search that faults does so at a member, past others that give nothing. -/
theorem findSomeM?_eq_error {e : Fault} (hf : xs.findSomeM? f = .error e) :
    ∃ before x after, xs = before ++ x :: after ∧ (∀ y ∈ before, f y = .ok none) ∧
      f x = .error e := by
  induction xs with
  | nil => cases hf
  | cons x xs ih =>
    rw [findSomeM?_cons] at hf
    cases hx : f x with
    | error e' =>
      rw [hx] at hf
      cases hf
      exact ⟨[], x, xs, rfl, nofun, hx⟩
    | ok found =>
      rw [hx] at hf
      cases found with
      | some b => cases hf
      | none =>
        obtain ⟨before, y, after, rfl, hb, hy⟩ := ih hf
        refine ⟨x :: before, y, after, rfl, ?_, hy⟩
        intro z hz
        rcases List.mem_cons.mp hz with rfl | hz
        · exact hx
        · exact hb z hz

end FindSome

/-! ### Chains that come back -/

section Chains

variable {α : Type} {R : α → α → Prop}

/-- A chain that meets something twice comes to a circle. -/
theorem circle_of_chain {a : α} {xs : List α} (hc : List.IsChain R (a :: xs))
    (hnd : ¬ (a :: xs).Nodup) : ∃ b, ReflTransGen R a b ∧ TransGen R b b := by
  induction xs generalizing a with
  | nil => exact absurd (List.nodup_singleton a) hnd
  | cons x xs ih =>
    obtain ⟨hax, hxs⟩ := List.isChain_cons_cons.mp hc
    by_cases ha : a ∈ x :: xs
    · have htrans : List.IsChain (TransGen R) (a :: x :: xs) := hc.imp fun _ _ => .single
      exact ⟨a, .refl, List.rel_of_pairwise_cons htrans.pairwise ha⟩
    · have hnd' : ¬ (x :: xs).Nodup := fun h => hnd (List.nodup_cons.mpr ⟨ha, h⟩)
      obtain ⟨b, hxb, hb⟩ := ih hxs hnd'
      exact ⟨b, .head hax hxb, hb⟩

/-- What leads to a circle goes on to something that leads to a circle. -/
theorem exists_step_of_circle {a b : α} (hab : ReflTransGen R a b) (hb : TransGen R b b) :
    ∃ c, R a c ∧ ReflTransGen R c b := by
  rcases hab.cases_head with rfl | ⟨c, hac, hcb⟩
  · obtain ⟨c, hac, hcb⟩ := TransGen.head'_iff.mp hb
    exact ⟨c, hac, hcb⟩
  · exact ⟨c, hac, hcb⟩

end Chains

namespace Heap

variable {h : Heap} {owner : MachineId}

/-! ### Where the check goes -/

/-- The check of a node ends, and finds no foreign atom. -/
inductive Clean (h : Heap) (owner : MachineId) : Node → Prop where
  | own {a : Atom} : a.owner = owner → Clean h owner (.atom a)
  | leaf {n : Node} : n.asAtom? = none → n.asRecord? = none → Clean h owner n
  | dangling {ref : RecordRef} : h.containsRecord ref = false → Clean h owner (.record ref)
  | record {ref : RecordRef} {r : Record} : h.record ref = .ok r →
      (∀ n ∈ r.edges, Clean h owner n) → Clean h owner (.record ref)

/-- The check goes on from the first record into the second: all parts before it are clean. -/
def Enters (h : Heap) (owner : MachineId) (a b : RecordRef) : Prop :=
  ∃ r before after, h.record a = .ok r ∧ r.edges = before ++ .record b :: after ∧
    ∀ n ∈ before, h.Clean owner n

/-- From the node the check comes back to a record that it is inside of. -/
def Circles (h : Heap) (owner : MachineId) (n : Node) : Prop :=
  ∃ a b, n = .record a ∧ ReflTransGen (h.Enters owner) a b ∧ TransGen (h.Enters owner) b b

/-! ### One level of the check -/

theorem foreign?_record {k : Nat} {ref : RecordRef} {r : Record} (hr : h.record ref = .ok r) :
    h.foreign? owner (k + 1) (.record ref) = r.edges.findSomeM? (h.foreign? owner k) := by
  rw [foreign?, record_eq_ok_iff.mp hr]

theorem foreign?_dangling {k : Nat} {ref : RecordRef} (hr : h.containsRecord ref = false) :
    h.foreign? owner (k + 1) (.record ref) = .ok none := by
  have hnone : h.records[ref.index]? = none := by
    simpa [containsRecord] using hr
  rw [foreign?, hnone]

theorem record_or_dangling (h : Heap) (ref : RecordRef) :
    (∃ r, h.record ref = .ok r) ∨ h.containsRecord ref = false := by
  cases hc : h.containsRecord ref with
  | true => exact .inl (record_of_inRange (show h.InRange (.record ref) from hc))
  | false => exact .inr rfl

/-- All that one level of the check comes to. -/
theorem foreign?_cases (h : Heap) (owner : MachineId) (k : Nat) (n : Node) :
    (∃ ref r, n = .record ref ∧ h.record ref = .ok r ∧
      h.foreign? owner (k + 1) n = r.edges.findSomeM? (h.foreign? owner k)) ∨
    (∃ found, h.foreign? owner (k + 1) n = .ok found ∧ (found = none → h.Clean owner n)) := by
  cases n with
  | atom a =>
    refine .inr ⟨_, rfl, fun hn => ?_⟩
    by_cases ha : a.owner = owner
    · exact .own ha
    · rw [if_neg ha] at hn
      cases hn
  | record ref =>
    rcases record_or_dangling h ref with ⟨r, hr⟩ | hd
    · exact .inl ⟨ref, r, rfl, hr, foreign?_record hr⟩
    · exact .inr ⟨none, foreign?_dangling hd, fun _ => .dangling hd⟩
  | _ => exact .inr ⟨none, rfl, fun _ => .leaf rfl rfl⟩

/-! ### Clean nodes -/

/-- What the check finds nothing in is clean. -/
theorem clean_of_foreign? {k : Nat} {n : Node} (hn : h.foreign? owner k n = .ok none) :
    h.Clean owner n := by
  induction k generalizing n with
  | zero => cases hn
  | succ k ih =>
    rcases foreign?_cases h owner k n with ⟨ref, r, rfl, hr, he⟩ | ⟨found, he, hclean⟩
    · rw [he] at hn
      exact .record hr fun x hx => ih (findSomeM?_eq_none hn x hx)
    · rw [he] at hn
      cases hn
      exact hclean rfl

/-- In a clean node the check finds nothing, unless it is cut short. -/
theorem foreign?_of_clean {n : Node} (hn : h.Clean owner n) (k : Nat) :
    h.foreign? owner k n = .ok none ∨ h.foreign? owner k n = .error .endless := by
  induction hn generalizing k with
  | own ha =>
    cases k with
    | zero => exact .inr rfl
    | succ k => exact .inl (by rw [foreign?, if_pos ha])
  | @leaf n ha hr =>
    cases k with
    | zero => exact .inr rfl
    | succ k =>
      cases n with
      | atom a => cases ha
      | record ref => cases hr
      | _ => exact .inl rfl
  | dangling hd =>
    cases k with
    | zero => exact .inr rfl
    | succ k => exact .inl (foreign?_dangling hd)
  | @record ref r hr _ ih =>
    cases k with
    | zero => exact .inr rfl
    | succ k =>
      rw [foreign?_record hr]
      exact findSomeM?_none_or_error fun x hx => ih x hx k

/-! ### The check does not end exactly on circles -/

/-- On a circle the check does not end, however deep it may go. -/
theorem foreign?_of_circles {a b : RecordRef} (hab : ReflTransGen (h.Enters owner) a b)
    (hb : TransGen (h.Enters owner) b b) (k : Nat) :
    h.foreign? owner k (.record a) = .error .endless := by
  induction k generalizing a with
  | zero => rfl
  | succ k ih =>
    obtain ⟨c, ⟨r, before, after, hr, hedges, hclean⟩, hcb⟩ := exists_step_of_circle hab hb
    rw [foreign?_record hr, hedges]
    rcases findSomeM?_none_or_error fun x hx => foreign?_of_clean (hclean x hx) k with hnone | hend
    · -- nothing is found before the record that the circle goes on with
      rw [findSomeM?_append (findSomeM?_eq_none hnone), findSomeM?_cons, ih hcb]
      rfl
    · exact findSomeM?_append_error hend

/-- Where the check is cut short it has gone down a chain of records. -/
theorem chain_of_foreign? {k : Nat} {n : Node} {e : Fault}
    (hn : h.foreign? owner (k + 1) n = .error e) : e = .endless ∧ ∃ a chain, n = .record a ∧
      List.IsChain (h.Enters owner) (a :: chain) ∧ chain.length = k ∧
      ∀ c ∈ a :: chain, c ∈ h.allRecords := by
  -- each level of the check that runs out has entered one more record
  induction k generalizing n with
  | zero =>
    rcases foreign?_cases h owner 0 n with ⟨ref, r, rfl, hr, he⟩ | ⟨found, he, -⟩
    · rw [he] at hn
      obtain ⟨before, x, after, hedges, hbefore, hx⟩ := findSomeM?_eq_error hn
      have hend : e = .endless := by cases hx; rfl
      refine ⟨hend, ref, [], rfl, .singleton ref, rfl, fun c hc => ?_⟩
      rw [List.mem_singleton.mp hc]
      exact mem_allRecords hr
    · rw [he] at hn
      cases hn
  | succ k ih =>
    rcases foreign?_cases h owner (k + 1) n with ⟨ref, r, rfl, hr, he⟩ | ⟨found, he, -⟩
    · rw [he] at hn
      obtain ⟨before, x, after, hedges, hbefore, hx⟩ := findSomeM?_eq_error hn
      obtain ⟨hend, b, chain, rfl, hchain, hlen, hin⟩ := ih hx
      have henters : h.Enters owner ref b :=
        ⟨r, before, after, hr, hedges, fun y hy => clean_of_foreign? (hbefore y hy)⟩
      refine ⟨hend, ref, b :: chain, rfl, List.isChain_cons_cons.mpr ⟨henters, hchain⟩,
        by simp [hlen], fun c hc => ?_⟩
      rcases List.mem_cons.mp hc with rfl | hc
      · exact mem_allRecords hr
      · exact hin c hc
    · rw [he] at hn
      cases hn

/-- The check of a node faults exactly if it comes back to a record that it is inside of. -/
theorem foreignOwner?_eq_error_iff {n : Node} {e : Fault} :
    h.foreignOwner? owner n = .error e ↔ e = .endless ∧ h.Circles owner n := by
  constructor
  · intro hn
    obtain ⟨hend, a, chain, rfl, hchain, hlen, hin⟩ := chain_of_foreign? hn
    -- the chain is longer than there are records, so it meets one of them twice
    have hnd : ¬ (a :: chain).Nodup := by
      intro hnd
      have hle := hnd.length_le_of_subset hin
      simp only [List.length_cons, hlen, allRecords, List.length_map, List.length_range] at hle
      omega
    obtain ⟨b, hab, hb⟩ := circle_of_chain hchain hnd
    exact ⟨hend, a, b, rfl, hab, hb⟩
  · rintro ⟨rfl, a, b, rfl, hab, hb⟩
    exact foreign?_of_circles hab hb _

end Heap

namespace Machine

variable {m : Machine}

theorem owns_eq_error_iff {n : Node} {e : Fault} :
    m.owns n = .error e ↔ e = .endless ∧ m.heap.Circles m.id n := by
  rw [← Heap.foreignOwner?_eq_error_iff, owns]
  cases m.heap.foreignOwner? m.id n with
  | error e' => simp
  | ok found => cases found <;> simp [pure, Except.pure]

/-- The ownership check of a reachable machine ends with an answer exactly if it does not come back
    to a record that it is inside of. The comparison that it guards has no end exactly if the check
    of the first value has none, or the first value passes and the check of the second has none. -/
theorem Reachable.ownership_check_ends_iff (hm : Reachable m) (left right : Node) :
    ((∃ answer, m.owns left = .ok answer) ↔ ¬ m.heap.Circles m.id left) ∧
    (m.tryEquals left right = .error .endless ↔
      m.heap.Circles m.id left ∨ m.owns left = .ok (.ok ()) ∧ m.heap.Circles m.id right) := by
  -- a circle is the only reason why the check does not end
  have howns : ∀ n, m.owns n = .error .endless ↔ m.heap.Circles m.id n := by
    intro n
    rw [owns_eq_error_iff]
    simp
  have hequals : m.equals left right ≠ .error .endless :=
    Heap.equals_ne_endless hm.waits.grounded left right
  refine ⟨?_, ?_⟩
  · cases ho : m.owns left with
    | ok answer =>
      have hnot : ¬ m.heap.Circles m.id left := by
        rw [← howns, ho]
        nofun
      exact ⟨fun _ => hnot, fun _ => ⟨answer, rfl⟩⟩
    | error e =>
      obtain ⟨-, hc⟩ := owns_eq_error_iff.mp ho
      exact ⟨nofun, fun hnot => absurd hc hnot⟩
  · rw [← howns, ← howns, tryEquals]
    cases ho : m.owns left with
    | error e => simp
    | ok answer =>
      cases answer with
      | error e => simp [pure, Except.pure]
      | ok u =>
        cases hr : m.owns right with
        | error e => simp
        | ok answer =>
          cases answer with
          | error e => simp [pure, Except.pure]
          | ok u =>
            -- both checks have passed, and the comparison itself ends
            simp only [ok_bind, reduceCtorEq, and_false, or_false, iff_false]
            refine bind_ne_error hequals fun same _ => ?_
            nofun

/-- The machine `looped` after a collection: its record contains itself. -/
def knotted : Machine :=
  { id := ⟨0⟩
    atoms := { id := ⟨⟨0⟩, 1⟩ }
    heap := { records := #[⟨.unit, .tuple, [.record ⟨0⟩]⟩] }
    roots := [.record ⟨0⟩] }

theorem reachable_knotted : Reachable knotted := reachable_looped.step (.collect rfl)

theorem ownership_check_of_knotted : knotted.heap.Circles knotted.id (.record ⟨0⟩) ∧
    ¬ (∃ answer, knotted.owns (.record ⟨0⟩) = .ok answer) ∧
    knotted.tryEquals (.record ⟨0⟩) .unit = .error .endless := by
  have henters : knotted.heap.Enters knotted.id ⟨0⟩ ⟨0⟩ := by
    refine ⟨_, [.unit], [], rfl, rfl, fun n hn => ?_⟩
    rw [List.mem_singleton.mp hn]
    exact .leaf rfl rfl
  have hc : knotted.heap.Circles knotted.id (.record ⟨0⟩) :=
    ⟨⟨0⟩, ⟨0⟩, rfl, .refl, .single henters⟩
  obtain ⟨howns, htry⟩ := reachable_knotted.ownership_check_ends_iff (.record ⟨0⟩) .unit
  exact ⟨hc, fun ha => howns.mp ha hc, htry.mpr (.inl hc)⟩

end Machine

end Dataflow
