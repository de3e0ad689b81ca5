import Mathlib.Logic.Relation
import Dataflow.Machine.Call
import Dataflow.Proofs.Features
import Dataflow.Proofs.Growth

/-! # What a call does

  A call comes down to a few changes of its machine, the rules of `Machine.Change`. A call
  that suspends *awaits* a variable: `Heap.Awaits` says for each builtin what has to be true of
  the operands for that. There is one lemma for each builtin, and `Machine.does_of_call` for all
  of them.
-/

open Relation (ReflTransGen)

namespace Dataflow

/-! ### What a call awaits -/

/-- A call of the builtin on these operands cannot go on before the variable is bound. -/
inductive Heap.Awaits (h : Heap) : Builtin → List Node → VarRef → Prop where
  /-- The only operand has no value. -/
  | operand {b : Builtin} {n : Node} {v : VarRef} : b ∈ [.label, .width, .waitOr, .wait] →
      h.deref n = .ok (.variable v) → Awaits h b [n] v
  /-- What fields are asked of has no value. -/
  | receiver {b : Builtin} {n f : Node} {v : VarRef} : b ∈ [.dot, .dotNumber] →
      h.deref n = .ok (.variable v) → Awaits h b [n, f] v
  /-- The feature has no value. -/
  | feature {n d f : Node} {v : VarRef} : h.deref n = .ok d → d.isSelectable = true →
      h.deref f = .ok (.variable v) → Awaits h .dot [n, f] v
  /-- The number of the field has no value. -/
  | number {n d f : Node} {v : VarRef} : h.deref n = .ok d → d.asVariable? = none →
      h.deref f = .ok (.variable v) → Awaits h .dotNumber [n, f] v
  /-- What a value is to be equal to has no value. -/
  | equal {n d x : Node} {v : VarRef} : h.deref n = .ok d → d.asVariable? = none →
      h.deref x = .ok (.variable v) → Awaits h .bind [n, x] v
  /-- The only field has no value. -/
  | field {n x : Node} {ref : RecordRef} {r : Record} {v : VarRef} :
      h.deref n = .ok (.record ref) → h.record ref = .ok r → r.fields = [x] →
      h.deref x = .ok (.variable v) → Awaits h .waitOr [n] v
  /-- None of many fields has a value, and a control variable listens to each of them. -/
  | control {n : Node} {ref : RecordRef} {r : Record} {c : VarRef} :
      h.deref n = .ok (.record ref) → h.record ref = .ok r → 2 ≤ r.fields.length →
      (∀ x ∈ r.fields, ∃ w, h.deref x = .ok (.variable w) ∧ h.Listens (.control c) w) →
      Awaits h .waitOr [n] c

/-! ### Receivers -/

/-- A receiver as a node. -/
def Receiver.toNode : Receiver → Node
  | .literal l => l.toNode
  | .record ref => .record ref

theorem Receiver.isSelectable_toNode (receiver : Receiver) :
    receiver.toNode.isSelectable = true := by
  cases receiver with
  | literal l => cases l <;> rfl
  | record ref => rfl

theorem Node.asVariable?_of_isSelectable {n : Node} (hn : n.isSelectable = true) :
    n.asVariable? = none := by
  cases n with
  | «variable» v => cases hn
  | _ => rfl

/-! ### Balanced heaps -/

/-- Every record of the heap is balanced. -/
def Heap.Balanced (h : Heap) : Prop :=
  ∀ {ref : RecordRef} {r : Record}, h.record ref = .ok r → r.Balanced

namespace Machine

/-! ### Changes -/

/-- What a request does in the end that neither runs a thread nor collects. -/
inductive Change : Machine → Machine → Prop where
  | intern (m : Machine) (content : String) :
      Change m { m with atoms := m.atoms.insert content }
  | allocate (m : Machine) {r : Record} : r.Canonical → Change m (m.allocate r).2
  | newVariable (m : Machine) : Change m m.newVariable.2
  | listen {m : Machine} {v c : VarRef} {cell : Cell} {heap : Heap} : m.heap.cell c = .ok cell →
      m.heap.addListener v (.control c) = .ok (true, heap) → Change m { m with heap }
  | bind {m m' : Machine} {v : VarRef} {value : Node} : m.bind v value = .ok (.ok m') → Change m m'
  | pin (m : Machine) (n : Node) : Change m { m with roots := m.roots ++ [n] }
  | print (m : Machine) (output : String) : Change m { m with output }

/-- What a call does: it makes changes, and if it suspends it awaits the variable. -/
structure Does (m : Machine) (b : Builtin) (operands : List Node) (o : Outcome) (m' : Machine) :
    Prop where
  changes : ReflTransGen Change m m'
  awaits : ∀ v, o = .suspend v → m'.heap.Awaits b operands v

variable {m m' : Machine} {o : Outcome} {b : Builtin} {operands : List Node}

/-- A call that proceeds at once. -/
theorem Does.proceed (results : List Node) : Does m b operands (.proceed results) m :=
  ⟨.refl, nofun⟩

/-- A call that suspends at once. -/
theorem Does.suspend {v : VarRef} (ha : m.heap.Awaits b operands v) :
    Does m b operands (.suspend v) m :=
  ⟨.refl, fun _ hv => by cases hv; exact ha⟩

/-- A call that raises an exception. -/
theorem Does.raise {exception : Node} (hc : ReflTransGen Change m m') :
    Does m b operands (.raise exception) m' :=
  ⟨hc, nofun⟩

/-! ### Exceptions -/

/-- The record of an exception: `debug` comes after the integer 1. -/
theorem canonical_exception (error debug : Atom) (detail : Node) :
    (Record.ofSorted (.atom error)
      [(.int 1, detail), (.literal (.atom debug), .unit)]).Canonical := by
  have hlt : Feature.compare (.int 1) (.literal (.atom debug)) = .lt :=
    Feature.compare_of_rank_lt (by decide : 0 < 1)
  refine Record.canonical_ofSorted _ (by simp) ?_
  simpa [Feature.Ascending] using hlt

theorem changes_newException (m : Machine) (kind : String) (arguments : List Node) :
    ReflTransGen Change m (m.newException kind arguments).2 := by
  have hdetail : ReflTransGen Change m (m.exceptionDetail kind arguments).2 := by
    rw [exceptionDetail_eq]
    refine .tail (.tail (.single (.intern m "kernel")) (.intern _ kind)) (.allocate _ ?_)
    exact Record.canonical_tuple _ (List.cons_ne_nil _ _)
  rw [newException_eq]
  refine .tail (.tail (.tail hdetail (.intern _ "error")) (.intern _ "debug")) (.allocate _ ?_)
  exact canonical_exception _ _ _

theorem changes_raiseTypeError (m : Machine) (expected : String) (value : Node) :
    ReflTransGen Change m (m.raiseTypeError expected value).2 := by
  rw [raiseTypeError_eq]
  exact .trans (.single (.intern m expected)) (changes_newException _ "typeError" _)

/-! ### Calls on a receiver -/

/-- All that a call on a receiver comes to: it suspends, goes on with the receiver, or raises. -/
theorem withReceiver_cases {value : Node} {call : Receiver → Except Fault (Outcome × Machine)}
    (hc : m.withReceiver value call = .ok (o, m')) :
    (∃ v, m.heap.deref value = .ok (.variable v) ∧ o = .suspend v ∧ m' = m) ∨
    (∃ receiver : Receiver, m.heap.deref value = .ok receiver.toNode ∧
      call receiver = .ok (o, m')) ∨
    (∃ d, m.heap.deref value = .ok d ∧ (o, m') = m.raiseTypeError "Record" d) := by
  unfold withReceiver at hc
  obtain ⟨d, hd, hc⟩ := bind_eq_ok.mp hc
  change m.heap.deref value = .ok d at hd
  cases d with
  | «variable» v => cases hc; exact .inl ⟨v, hd, rfl, rfl⟩
  | record ref => exact .inr (.inl ⟨.record ref, hd, hc⟩)
  | atom a => exact .inr (.inl ⟨.literal (.atom a), hd, hc⟩)
  | bool b => exact .inr (.inl ⟨.literal (.bool b), hd, hc⟩)
  | unit => exact .inr (.inl ⟨.literal .unit, hd, hc⟩)
  | int i => cases hc; exact .inr (.inr ⟨_, hd, rfl⟩)
  | float x => cases hc; exact .inr (.inr ⟨_, hd, rfl⟩)

/-- A call on a receiver does what it goes on with, if it suspends on a receiver without value. -/
theorem does_withReceiver {value : Node} {call : Receiver → Except Fault (Outcome × Machine)}
    (hc : m.withReceiver value call = .ok (o, m'))
    (hv : ∀ v, m.heap.deref value = .ok (.variable v) → m.heap.Awaits b operands v)
    (hcall : ∀ receiver : Receiver, m.heap.deref value = .ok receiver.toNode →
      call receiver = .ok (o, m') → Does m b operands o m') : Does m b operands o m' := by
  rcases withReceiver_cases hc with ⟨v, hd, rfl, rfl⟩ | ⟨receiver, hd, hc⟩ | ⟨d, -, hc⟩
  · exact .suspend (hv v hd)
  · exact hcall receiver hd hc
  · cases hc
    exact .raise (changes_raiseTypeError m _ _)

theorem does_label {n : Node} (hc : m.label n = .ok (o, m')) : Does m .label [n] o m' := by
  refine does_withReceiver hc (fun v hd => .operand (by decide) hd) fun receiver _ hr => ?_
  cases receiver with
  | literal l => cases hr; exact .proceed _
  | record ref =>
    obtain ⟨r, -, hr⟩ := bind_eq_ok.mp hr
    cases hr
    exact .proceed _

theorem does_width {n : Node} (hc : m.width n = .ok (o, m')) : Does m .width [n] o m' := by
  refine does_withReceiver hc (fun v hd => .operand (by decide) hd) fun receiver _ hr => ?_
  cases receiver with
  | literal l => cases hr; exact .proceed _
  | record ref =>
    obtain ⟨r, -, hr⟩ := bind_eq_ok.mp hr
    cases hr
    exact .proceed _

theorem does_dot {n f : Node} (hc : m.dot n f = .ok (o, m')) : Does m .dot [n, f] o m' := by
  refine does_withReceiver hc (fun v hd => .receiver (by decide) hd) fun receiver hd hr => ?_
  -- the receiver is known, now the feature is looked at
  obtain ⟨e, he, hr⟩ := bind_eq_ok.mp hr
  split at hr
  -- no value yet, no feature at all, or a feature
  · cases hr; exact .suspend (.feature hd receiver.isSelectable_toNode he)
  · cases hr; exact .raise (changes_raiseTypeError m _ _)
  · cases receiver with
    | literal l => cases hr; exact .raise (changes_newException m _ _)
    | record ref =>
      obtain ⟨r, -, hr⟩ := bind_eq_ok.mp hr
      split at hr
      · cases hr; exact .proceed _
      · cases hr; exact .raise (changes_newException m _ _)

/-- A field is asked for at an integer, by a call or by the host. -/
theorem does_dotNumber {n f : Node} {i : Int} (hc : m.dotNumber n i = .ok (o, m')) :
    Does m .dotNumber [n, f] o m' := by
  refine does_withReceiver hc (fun v hd => .receiver (by decide) hd) fun receiver _ hr => ?_
  cases receiver with
  | literal l => cases hr; exact .raise (changes_newException m _ _)
  | record ref =>
    obtain ⟨r, -, hr⟩ := bind_eq_ok.mp hr
    split at hr
    · cases hr; exact .proceed _
    · cases hr; exact .raise (changes_newException m _ _)

theorem does_callDotNumber {n f : Node} (hc : m.callDotNumber n f = .ok (o, m')) :
    Does m .dotNumber [n, f] o m' := by
  unfold callDotNumber at hc
  obtain ⟨d, hd, hc⟩ := bind_eq_ok.mp hc
  cases d with
  | «variable» v => cases hc; exact .suspend (.receiver (by decide) hd)
  | _ =>
    obtain ⟨e, he, hc⟩ := bind_eq_ok.mp hc
    cases e with
    | «variable» w => cases hc; exact .suspend (.number hd rfl he)
    | int i => exact does_dotNumber hc
    | _ => cases hc; exact .raise (changes_raiseTypeError m _ _)

/-! ### Waiting, binding and showing -/

theorem does_callWait {n : Node} (hc : m.callWait n = .ok (o, m')) : Does m .wait [n] o m' := by
  unfold callWait at hc
  obtain ⟨d, hd, hc⟩ := bind_eq_ok.mp hc
  cases d with
  | «variable» v => cases hc; exact .suspend (.operand (by decide) hd)
  | _ => cases hc; exact .proceed _

theorem does_callBind {n x : Node} (hc : m.callBind n x = .ok (o, m')) :
    Does m .bind [n, x] o m' := by
  unfold callBind at hc
  obtain ⟨d, hd, hc⟩ := bind_eq_ok.mp hc
  cases d with
  | «variable» v =>
    -- the target is free: the call is the bind
    obtain ⟨bound, hb, hc⟩ := bind_eq_ok.mp hc
    cases bound with
    | error e => cases hc
    | ok bound => cases hc; exact ⟨.single (.bind hb), nofun⟩
  | _ =>
    obtain ⟨e, he, hc⟩ := bind_eq_ok.mp hc
    cases e with
    | «variable» w => cases hc; exact .suspend (.equal hd rfl he)
    | _ =>
      obtain ⟨same, -, hc⟩ := bind_eq_ok.mp hc
      cases same with
      | true => cases hc; exact .proceed _
      | false => cases hc; exact .raise (changes_newException m _ _)

theorem does_callShow {n : Node} (hc : m.callShow n = .ok (o, m')) : Does m .show [n] o m' := by
  unfold callShow at hc
  obtain ⟨text, -, hc⟩ := bind_eq_ok.mp hc
  cases hc
  exact ⟨.single (.print m _), nofun⟩

/-! ### Waiting for one field of many -/

/-- The search for a field with a value finds none exactly if each field leads to a variable. -/
theorem firstDetermined_eq_inr {entries : List (Feature × Node)} {vs : List VarRef} :
    m.firstDetermined entries = .ok (.inr vs) ↔
      List.Forall₂ (fun e v => m.heap.deref e.2 = .ok (.variable v)) entries vs := by
  induction entries generalizing vs with
  | nil => simp [firstDetermined, eq_comm]
  | cons e rest ih =>
    obtain ⟨f, n⟩ := e
    rw [List.forall₂_cons_left_iff]
    constructor
    · intro hf
      rw [firstDetermined] at hf
      obtain ⟨d, hd, hf⟩ := bind_eq_ok.mp hf
      cases d with
      | «variable» v =>
        obtain ⟨found, hrest, hf⟩ := bind_eq_ok.mp hf
        cases found with
        | inl g => cases hf
        | inr ws => cases hf; exact ⟨v, ws, hd, ih.mp hrest, rfl⟩
      | _ => cases hf
    · rintro ⟨v, ws, hd, hrest, rfl⟩
      have hd' : m.deref n = .ok (.variable v) := hd
      simp [firstDetermined, hd', ih.mpr hrest, pure, Except.pure]

/-- The search goes through features and fields in pairs. If the record is balanced, it sees all
    fields. -/
theorem fields_of_firstDetermined {r : Record} {vs : List VarRef} (hbal : r.Balanced)
    (hf : m.firstDetermined (r.features.zip r.fields) = .ok (.inr vs)) :
    List.Forall₂ (fun x v => m.heap.deref x = .ok (.variable v)) r.fields vs := by
  rw [← List.map_snd_zip (Nat.le_of_eq hbal.symm), List.forall₂_map_left_iff]
  exact firstDetermined_eq_inr.mp hf

/-- A variable with listeners is unbound. -/
theorem cell_of_listeners {h : Heap} {v : VarRef} {ls : List Listener} {l : Listener} (hl : l ∈ ls)
    (hv : h.listeners v = .ok ls) : h.cell v = .ok (.unbound ls) := by
  unfold Heap.listeners at hv
  obtain ⟨c, hc, hv⟩ := bind_eq_ok.mp hv
  cases c with
  | unbound ks => cases hv; exact hc
  | bound x => cases hv; cases hl

theorem listens_of_listensToAll {l : Listener} {vs : List VarRef}
    (hl : m.listensToAll l vs = .ok true) : ∀ v ∈ vs, m.heap.Listens l v := by
  induction vs with
  | nil => nofun
  | cons v vs ih =>
    rw [listensToAll] at hl
    obtain ⟨ls, hls, hl⟩ := bind_eq_ok.mp hl
    by_cases hm : l ∈ ls
    · rw [if_pos hm] at hl
      intro w hw
      -- the first variable is looked at here, the others by the rest of the search
      rcases List.mem_cons.mp hw with rfl | hw
      · exact ⟨ls, cell_of_listeners hm hls, hm⟩
      · exact ih hl w hw
    · rw [if_neg hm] at hl
      cases hl

/-- A control variable that is found has no value, and listens to all of the variables. -/
theorem pendingControl?_eq_some {others : List VarRef} {ls : List Listener} {c : VarRef}
    (hp : m.pendingControl? others ls = .ok (some c)) :
    .control c ∈ ls ∧ m.heap.isDetermined (.variable c) = .ok false ∧
      ∀ v ∈ others, m.heap.Listens (.control c) v := by
  induction ls with
  | nil => cases hp
  | cons l rest ih =>
    cases l with
    | thread id =>
      obtain ⟨hm, hall⟩ := ih hp
      exact ⟨List.mem_cons_of_mem _ hm, hall⟩
    | control c' =>
      rw [pendingControl?] at hp
      obtain ⟨det, hdet, hp⟩ := bind_eq_ok.mp hp
      cases det with
      | true =>
        obtain ⟨hm, hall⟩ := ih hp
        exact ⟨List.mem_cons_of_mem _ hm, hall⟩
      | false =>
        obtain ⟨all, hall, hp⟩ := bind_eq_ok.mp hp
        cases all with
        | true =>
          cases hp
          exact ⟨List.mem_cons_self .., hdet, listens_of_listensToAll hall⟩
        -- a control of another wait, which does not listen to all of these
        | false =>
          obtain ⟨hm, hall⟩ := ih hp
          exact ⟨List.mem_cons_of_mem _ hm, hall⟩

/-- A control variable that is made to listen to variables listens to all of them. -/
theorem listenTo_spec {c : VarRef} {cell : Cell} {vs : List VarRef}
    (hcell : m.heap.cell c = .ok cell) (hvs : ∀ v ∈ vs, ∃ ls, m.heap.cell v = .ok (.unbound ls))
    (hl : m.listenTo (.control c) vs = .ok m') :
    ReflTransGen Change m m' ∧ m.heap.Grows m'.heap ∧
      (∀ {w ls}, m.heap.cell w = .ok (.unbound ls) → ∃ ks, m'.heap.cell w = .ok (.unbound ks)) ∧
      ∀ v ∈ vs, m'.heap.Listens (.control c) v := by
  induction vs generalizing m cell with
  | nil => cases hl; exact ⟨.refl, .refl _, fun hw => ⟨_, hw⟩, nofun⟩
  | cons v vs ih =>
    rw [listenTo] at hl
    obtain ⟨⟨parked, heap⟩, ha, hl⟩ := bind_eq_ok.mp hl
    obtain ⟨ls, hv⟩ := hvs v (List.mem_cons_self ..)
    obtain ⟨rfl, hlistens⟩ := Heap.listens_of_addListener hv ha
    have hg := Heap.grows_addListener ha
    have hvs' : ∀ w ∈ vs, ∃ ks, heap.cell w = .ok (.unbound ks) := by
      intro w hw
      obtain ⟨ks, hwc⟩ := hvs w (List.mem_cons_of_mem _ hw)
      exact Heap.unbound_addListener ha hwc
    obtain ⟨cell', hcell'⟩ := Heap.exists_cell_addListener ha hcell
    -- the rest of the list is listened to in a heap that has bound nothing
    obtain ⟨hch, hg', hun, hall⟩ := ih (m := { m with heap }) hcell' hvs' hl
    refine ⟨.head (.listen hcell ha) hch, hg.trans hg', fun hw => ?_, fun w hw => ?_⟩
    · obtain ⟨ks, hw⟩ := Heap.unbound_addListener ha hw
      exact hun hw
    · rcases List.mem_cons.mp hw with rfl | hw
      · obtain ⟨ks, hc⟩ := hlistens.unbound
        obtain ⟨ks', hc'⟩ := hun hc
        exact hg'.listens hlistens hc'
      · exact hall w hw

/-- The ways of waiting for one of many variables: the only one is waited for, or a control
    variable listens to all of them. -/
theorem waitForAny_cases {vs : List VarRef} {c : VarRef}
    (hvs : ∀ v ∈ vs, ∃ ls, m.heap.cell v = .ok (.unbound ls))
    (hw : m.waitForAny vs = .ok (c, m')) :
    vs = [c] ∧ m' = m ∨ 2 ≤ vs.length ∧ ReflTransGen Change m m' ∧ m.heap.Grows m'.heap ∧
      ∀ v ∈ vs, m'.heap.Listens (.control c) v := by
  match vs, hw with
  | [], hw => cases hw
  | [v], hw => cases hw; exact .inl ⟨rfl, rfl⟩
  | v :: v' :: vs, hw =>
    refine .inr ⟨by simp, ?_⟩
    rw [waitForAny.eq_3 _ _ _ (by simp)] at hw
    obtain ⟨ls, hls, hw⟩ := bind_eq_ok.mp hw
    obtain ⟨found, hfound, hw⟩ := bind_eq_ok.mp hw
    cases found with
    -- a pending control is taken up again, and nothing changes
    | some c' =>
      cases hw
      obtain ⟨hm, -, hall⟩ := pendingControl?_eq_some hfound
      refine ⟨.refl, .refl _, fun w hw => ?_⟩
      rcases List.mem_cons.mp hw with rfl | hw
      · exact ⟨ls, cell_of_listeners hm hls, hm⟩
      · exact hall w hw
    | none =>
      obtain ⟨last, hl, hw⟩ := bind_eq_ok.mp hw
      cases hw
      -- a new control is made to listen to all of them
      have hfresh : m.newVariable.2.heap.cell m.newVariable.1 = .ok (.unbound []) :=
        Heap.cell_allocateVariable.mpr (.inr ⟨rfl, rfl⟩)
      obtain ⟨hch, hg, -, hall⟩ := listenTo_spec (m := m.newVariable.2) hfresh
        (fun w hw => (hvs w hw).imp fun _ hc => Heap.cell_allocateVariable_of_ok hc) hl
      exact ⟨.head (.newVariable m) hch, (Heap.grows_allocateVariable _).trans hg, hall⟩

theorem does_waitOr {n : Node} (hbal : m.heap.Balanced) (hc : m.waitOr n = .ok (o, m')) :
    Does m .waitOr [n] o m' := by
  refine does_withReceiver hc (fun v hd => .operand (by decide) hd) fun receiver hd hr => ?_
  cases receiver with
  | literal l => cases hr; exact .proceed _
  | record ref =>
    obtain ⟨r, href, hr⟩ := bind_eq_ok.mp hr
    obtain ⟨found, hfound, hr⟩ := bind_eq_ok.mp hr
    cases found with
    | inl f => cases hr; exact .proceed _
    | inr vs =>
      obtain ⟨⟨c, last⟩, hw, hr⟩ := bind_eq_ok.mp hr
      cases hr
      have hfields := fields_of_firstDetermined (hbal href) hfound
      -- the fields have led to free variables, one for each field
      have hvs : ∀ v ∈ vs, ∃ ls, m.heap.cell v = .ok (.unbound ls) := by
        intro v hv
        obtain ⟨x, -, hx⟩ := exists_of_forall₂_right hfields hv
        exact Heap.cell_of_deref hx
      -- one field is waited for as it is, several through a control
      rcases waitForAny_cases hvs hw with ⟨rfl, rfl⟩ | ⟨hlen, hch, hg, hlistens⟩
      · obtain ⟨x, hx, hxs⟩ : ∃ x, m'.heap.deref x = .ok (.variable c) ∧ r.fields = [x] := by
          obtain ⟨x, xs, hx, hnil, hxs⟩ := List.forall₂_cons_right_iff.mp hfields
          rw [List.forall₂_nil_right_iff.mp hnil] at hxs
          exact ⟨x, hx, hxs⟩
        exact .suspend (.field hd href hxs hx)
      · refine ⟨hch, fun v hv => ?_⟩
        cases hv
        refine .control (hg.deref_value hd rfl) (hg.record href) (hfields.length_eq ▸ hlen) ?_
        intro x hx
        obtain ⟨v, hv, hxv⟩ := exists_of_forall₂_left hfields hx
        obtain ⟨ls, hls⟩ := (hlistens v hv).unbound
        exact ⟨v, hg.deref_unbound hxv hls, hlistens v hv⟩

/-! ### All builtins -/

/-- What a call of any builtin does. -/
theorem does_of_call (hbal : m.heap.Balanced) (hc : m.call b operands = .ok (o, m')) :
    Does m b operands o m' := by
  unfold call at hc
  split at hc
  · exact does_label hc
  · exact does_width hc
  · exact does_dot hc
  · exact does_callDotNumber hc
  · exact does_waitOr hbal hc
  · exact does_callWait hc
  · obtain ⟨det, -, hc⟩ := bind_eq_ok.mp hc
    cases hc
    exact .proceed _
  · exact does_callBind hc
  · exact does_callShow hc
  · cases hc

end Machine

end Dataflow
