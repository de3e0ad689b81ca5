import Dataflow.Proofs.Wakeup

/-! # What a suspended call waits for

  A call that suspends names a variable, and its thread is put into the list of that variable. This
  works if the variable is unbound, and a variable that a call has found by dereferencing is.

  There is one exception. A call that waits for one field of many takes up the control variable of
  an earlier attempt if that one has no value yet, and names it as it stands. The host can see the
  control and bind it to another variable without a value. Then the control is a bound variable that
  no thread can wait for, and until a field is bound a thread makes the call again and again, in all
  of its turns, and changes nothing.
-/

namespace Dataflow.Machine

variable {m m' : Machine}

/-! ### The control of an earlier attempt -/

/-- The variable to wait for is unbound, or it is a control without value that was there before. -/
theorem waitForAny_unbound {vs : List VarRef} {c : VarRef}
    (hvs : ∀ v ∈ vs, ∃ ls, m.heap.cell v = .ok (.unbound ls))
    (hw : m.waitForAny vs = .ok (c, m')) :
    (∃ ls, m'.heap.cell c = .ok (.unbound ls)) ∨
      m' = m ∧ m.heap.isDetermined (.variable c) = .ok false := by
  match vs, hw with
  | [], hw => cases hw
  | [v], hw =>
    cases hw
    exact .inl (hvs _ (List.mem_singleton.mpr rfl))
  | v :: v' :: vs, hw =>
    rw [waitForAny.eq_3 _ _ _ (by simp)] at hw
    obtain ⟨ls, hls, hw⟩ := bind_eq_ok.mp hw
    obtain ⟨found, hfound, hw⟩ := bind_eq_ok.mp hw
    cases found with
    | some c' =>
      cases hw
      obtain ⟨-, hdet, -⟩ := pendingControl?_eq_some hfound
      exact .inr ⟨rfl, hdet⟩
    | none =>
      obtain ⟨last, hl, hw⟩ := bind_eq_ok.mp hw
      cases hw
      -- a new control is unbound, and making it listen binds nothing
      have hfresh : m.newVariable.2.heap.cell m.newVariable.1 = .ok (.unbound []) :=
        Heap.cell_allocateVariable.mpr (.inr ⟨rfl, rfl⟩)
      obtain ⟨-, -, hstays, -⟩ := listenTo_spec (m := m.newVariable.2) hfresh
        (fun w hw => (hvs w hw).imp fun _ hc => Heap.cell_allocateVariable_of_ok hc) hl
      exact .inl (hstays hfresh)

/-- A call that waits for one field of many suspends on its operand, or waits for any of the variables
    that the fields lead to. -/
theorem waitOr_suspended {n : Node} {v : VarRef} (hc : m.waitOr n = .ok (.suspend v, m')) :
    (m.heap.deref n = .ok (.variable v) ∧ m' = m) ∨
    ∃ ref r vs, m.heap.deref n = .ok (.record ref) ∧ m.heap.record ref = .ok r ∧
      m.firstDetermined (r.features.zip r.fields) = .ok (.inr vs) ∧
      m.waitForAny vs = .ok (v, m') := by
  rcases withReceiver_cases hc with ⟨w, hd, he, rfl⟩ | ⟨receiver, hd, hr⟩ | ⟨d, -, he⟩
  · cases he
    exact .inl ⟨hd, rfl⟩
  · cases receiver with
    | literal l => cases hr
    | record ref =>
      obtain ⟨r, href, hr⟩ := bind_eq_ok.mp hr
      obtain ⟨found, hfound, hr⟩ := bind_eq_ok.mp hr
      cases found with
      | inl f => cases hr
      | inr vs =>
        obtain ⟨⟨c, last⟩, hw, hr⟩ := bind_eq_ok.mp hr
        cases hr
        exact .inr ⟨ref, r, vs, hd, href, hfound, hw⟩
  · cases he

/-- A call that waits for one field of many suspends on an unbound variable, or on a control without
    value that was there before. -/
theorem waitOr_unbound {n : Node} {v : VarRef} (hc : m.waitOr n = .ok (.suspend v, m')) :
    (∃ ls, m'.heap.cell v = .ok (.unbound ls)) ∨
      m' = m ∧ m.heap.isDetermined (.variable v) = .ok false := by
  rcases waitOr_suspended hc with ⟨hd, rfl⟩ | ⟨ref, r, vs, -, -, hfound, hw⟩
  · exact .inl (Heap.cell_of_deref hd)
  · refine waitForAny_unbound (fun u hu => ?_) hw
    obtain ⟨e, -, he⟩ := exists_of_forall₂_right (firstDetermined_eq_inr.mp hfound) hu
    exact Heap.cell_of_deref he

/-! ### What a call that suspends names -/

/-- The operand is a record of many fields, none of which has a value; the control `c` listens to
    all of them; and it is bound to something that leads to another variable without a value. -/
structure Aliased (m : Machine) (operands : List Node) (c : VarRef) : Prop where
  /-- The control listens to the variables of all fields. -/
  control : ∃ n ref r, operands = [n] ∧ m.heap.deref n = .ok (.record ref) ∧
    m.heap.record ref = .ok r ∧ 2 ≤ r.fields.length ∧
    ∀ x ∈ r.fields, ∃ w, m.heap.deref x = .ok (.variable w) ∧ m.heap.Listens (.control c) w
  /-- The control is bound. -/
  bound : ∃ x, m.heap.cell c = .ok (.bound x)
  /-- It has no value all the same. -/
  undetermined : ∃ u, u ≠ c ∧ m.heap.deref (.variable c) = .ok (.variable u)

/-- What a suspended call names is unbound, or a control that was bound to a variable. -/
theorem unbound_or_aliased (hbal : m.heap.Balanced) {b : Builtin} {operands : List Node}
    {v : VarRef} (hc : m.call b operands = .ok (.suspend v, m')) :
    (∃ ls, m'.heap.cell v = .ok (.unbound ls)) ∨ b = .waitOr ∧ m' = m ∧ m.Aliased operands v := by
  have hawaits := (does_of_call hbal hc).awaits v rfl
  cases hawaits with
  | operand _ hd => exact .inl (Heap.cell_of_deref hd)
  | receiver _ hd => exact .inl (Heap.cell_of_deref hd)
  | feature _ _ hd => exact .inl (Heap.cell_of_deref hd)
  | number _ _ hd => exact .inl (Heap.cell_of_deref hd)
  | equal _ _ hd => exact .inl (Heap.cell_of_deref hd)
  | field _ _ _ hd => exact .inl (Heap.cell_of_deref hd)
  | @control n ref r _ hn href hlen hall =>
    rcases waitOr_unbound hc with hv | ⟨rfl, hdet⟩
    · exact .inl hv
    obtain ⟨d, hd, he⟩ := bind_eq_ok.mp hdet
    cases d with
    | «variable» u =>
      by_cases huv : u = v
      · exact .inl (Heap.cell_of_deref (huv ▸ hd))
      -- dereferencing leads on from the control, so it is bound
      · refine .inr ⟨rfl, rfl, ⟨n, ref, r, rfl, hn, href, hlen, hall⟩, ?_, u, huv, hd⟩
        cases hcell : m'.heap.cell v with
        | error f => rw [Heap.deref_dangling hcell] at hd; cases hd
        | ok cell =>
          cases cell with
          | bound x => exact ⟨x, rfl⟩
          | unbound ls =>
            rw [Heap.deref_unbound hcell] at hd
            cases hd
            exact absurd rfl huv
    | _ => cases he

/-! ### Parking and spinning -/

theorem addListener_bound {h : Heap} {v : VarRef} {x : Node} (l : Listener)
    (hv : h.cell v = .ok (.bound x)) : h.addListener v l = .ok (false, h) := by
  unfold Heap.addListener
  rw [hv]
  rfl

/-- A thread whose call suspends on a bound variable and changes nothing spends its turn on it. -/
theorem turn_spins {t : Thread} {i : Instruction} {operands : List Node} {v : VarRef} {x : Node}
    (hi : t.code[t.pc]? = some i) (ho : i.inputs.mapM t.register = .ok operands)
    (hc : m.call i.builtin operands = .ok (.suspend v, m))
    (hv : m.heap.cell v = .ok (.bound x)) (n : Nat) : turn n m t = .ok (m, t) := by
  induction n with
  | zero => rfl
  | succ n ih =>
    rw [turn, hi]
    simp only [ho, hc, ok_bind, addListener_bound _ hv]
    exact ih

/-- A call of a reachable machine that suspends names an unbound variable, in whose list any thread
    can be put; or it waits for one of many fields, changes nothing and names a control that was
    bound to another variable, and then a thread that makes the call makes no progress in a turn of
    any length. -/
theorem Reachable.suspension_parks_or_spins (hm : Reachable m) {b : Builtin} {operands : List Node}
    {v : VarRef} (hc : m.call b operands = .ok (.suspend v, m')) :
    ((∃ ls, m'.heap.cell v = .ok (.unbound ls)) ∧
      ∀ id, ∃ h, m'.heap.addListener v (.thread id) = .ok (true, h) ∧ h.Listens (.thread id) v) ∨
    (b = .waitOr ∧ m' = m ∧ m.Aliased operands v ∧
      ∀ t i n, t.code[t.pc]? = some i → i.builtin = b → i.inputs.mapM t.register = .ok operands →
        turn n m t = .ok (m, t)) := by
  rcases unbound_or_aliased hm.waits.balanced hc with ⟨ls, hv⟩ | ⟨rfl, rfl, hal⟩
  · refine .inl ⟨⟨ls, hv⟩, fun id => ?_⟩
    have ha := Heap.addListener_unbound hv (.thread id)
    exact ⟨_, ha, (Heap.listens_of_addListener hv ha).2⟩
  · refine .inr ⟨rfl, rfl, hal, fun t i n hi hb ho => ?_⟩
    obtain ⟨x, hx⟩ := hal.bound
    exact turn_spins hi ho (hb ▸ hc) hx n

/-- A machine whose host has bound the control of a call to a variable without a value. -/
def aliased : Machine :=
  { id := ⟨0⟩
    heap := {
      records := #[⟨.unit, .tuple, [.variable ⟨0⟩, .variable ⟨1⟩]⟩]
      cells := #[.unbound [.control ⟨2⟩], .unbound [.control ⟨2⟩], .bound (.variable ⟨3⟩),
        .unbound []]
      allocated := 5 } }

theorem reachable_aliased : Reachable aliased := by
  have h₂ := ((Reachable.new ⟨0⟩ {}).step (.newVariable _)).step (.newVariable _)
  have h₃ := h₂.step (.buildTuple .unit [.variable ⟨0⟩, .variable ⟨1⟩] rfl)
  have h₄ := h₃.step (.call .waitOr [.record ⟨0⟩] rfl)
  exact (h₄.step (.newVariable _)).step (.bind ⟨2⟩ (.variable ⟨3⟩) rfl)

/-- A thread that waits for one of the two fields. -/
def spinner : Thread :=
  { id := ⟨1⟩, registers := [.record ⟨0⟩, .unit], code := [⟨.waitOr, [0], [1]⟩] }

theorem aliased_spins : aliased.call .waitOr [.record ⟨0⟩] = .ok (.suspend ⟨2⟩, aliased) ∧
    aliased.heap.cell ⟨2⟩ = .ok (.bound (.variable ⟨3⟩)) ∧
    ∀ n, turn n aliased spinner = .ok (aliased, spinner) := by
  have hc : aliased.call .waitOr [.record ⟨0⟩] = .ok (.suspend ⟨2⟩, aliased) := rfl
  refine ⟨hc, rfl, fun n => ?_⟩
  rcases reachable_aliased.suspension_parks_or_spins hc with ⟨⟨ls, hv⟩, -⟩ | ⟨-, -, -, hspins⟩
  · cases hv
  · exact hspins spinner _ n rfl rfl rfl

end Dataflow.Machine
